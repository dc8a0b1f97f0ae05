import ProcessContracts.Trace.Basic

/-!
# The channels of a trace

References in the order they are written, and the two ways of changing them: renaming every
reference, and hiding those of unwanted channels. Both keep the shape of the trace.
-/

namespace ProcessContracts.Trace

mutual

/-- Every channel reference, from left to right. -/
def channels : Trace → List ChanRef
  | .event _ chan => [chan]
  | .comp _ children => channelsAll children
  | .fix _ body => channels body
  | _ => []

def channelsAll : List Trace → List ChanRef
  | [] => []
  | t :: ts => channels t ++ channelsAll ts

end

mutual

/-- Replaces every channel reference. -/
def mapChannels (f : ChanRef → ChanRef) : Trace → Trace
  | .event direction chan => .event direction (f chan)
  | .comp op children => .comp op (mapChannelsAll f children)
  | .fix binder body => .fix binder (mapChannels f body)
  | leaf => leaf

def mapChannelsAll (f : ChanRef → ChanRef) : List Trace → List Trace
  | [] => []
  | t :: ts => mapChannels f t :: mapChannelsAll f ts

end

mutual

/-- A communication on a channel that is not kept becomes immediate termination. -/
def hide (keep : ChanRef → Bool) : Trace → Trace
  | .event direction chan => if keep chan then .event direction chan else .skip
  | .comp op children => .comp op (hideAll keep children)
  | .fix binder body => .fix binder (hide keep body)
  | leaf => leaf

def hideAll (keep : ChanRef → Bool) : List Trace → List Trace
  | [] => []
  | t :: ts => hide keep t :: hideAll keep ts

end

@[simp] theorem channelsAll_eq_flatMap (ts : List Trace) :
    channelsAll ts = ts.flatMap channels := by
  induction ts <;> simp_all [channelsAll]

@[simp] theorem mapChannelsAll_eq_map (f : ChanRef → ChanRef) (ts : List Trace) :
    mapChannelsAll f ts = ts.map (mapChannels f) := by
  induction ts <;> simp_all [mapChannelsAll]

@[simp] theorem hideAll_eq_map (keep : ChanRef → Bool) (ts : List Trace) :
    hideAll keep ts = ts.map (hide keep) := by
  induction ts <;> simp_all [hideAll]

/-- Renames with a query. Every reference of the trace has to have an answer. -/
def renameChannels (rename : ChanRef → Lookup ChanRef) (t : Trace) : Lookup Trace := do
  t.channels.forM fun chan => discard (rename chan)
  pure (t.mapChannels fun chan => (rename chan).getD chan)

/-- Hides the channels a query rejects. Every reference of the trace has to have an answer. -/
def hideUnless (keep : ChanRef → Lookup Bool) (t : Trace) : Lookup Trace := do
  t.channels.forM fun chan => discard (keep chan)
  pure (t.hide fun chan => (keep chan).getD true)

end ProcessContracts.Trace
