import ProcessContracts.Trace.Channels

/-!
# Traces as text
-/

namespace ProcessContracts.Trace

mutual

/-- The trace with every channel written by `chan`. -/
def textWith (chan : ChanRef → String) : Trace → String
  | .skip => "Skip"
  | .stop => "Stop"
  | .div => "Div"
  | .chaos => "Chaos"
  | .atom a => s!"Atom({a.id.text})"
  | .ref id => id.text
  | .event direction c => chan c ++ direction.mark
  | .unresolved node => s!"@{node.text}"
  | .comp op children =>
      op.text ++ "(" ++ String.intercalate ", " (textWithAll chan children) ++ ")"
  | .fix binder body => s!"Fix {binder.id.text}. " ++ textWith chan body

def textWithAll (chan : ChanRef → String) : List Trace → List String
  | [] => []
  | t :: ts => textWith chan t :: textWithAll chan ts

end

@[simp] theorem textWithAll_eq_map (chan : ChanRef → String) (ts : List Trace) :
    textWithAll chan ts = ts.map (textWith chan) := by
  induction ts <;> simp_all [textWithAll]

/-- The trace with channels as handles. -/
def text (t : Trace) : String := t.textWith ChanRef.text

/-- The trace with the names the program gives its channels. -/
def describe (program : Program) (t : Trace) : Lookup String := do
  t.channels.forM fun chan => discard (chan.describe program)
  pure (t.textWith fun chan => (chan.describe program).getD chan.text)

end ProcessContracts.Trace
