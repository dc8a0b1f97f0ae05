import ProcessContracts.Trace.Basic

/-!
# Fingerprints

A number computed from a trace, used to look traces up. Equal traces have equal fingerprints;
different ones may share one.
-/

namespace ProcessContracts.Trace

def mix (seed value : UInt64) : UInt64 :=
  let mixed := seed * 1099511628211 + value
  mixed ^^^ (mixed >>> 29)

def mixNat (seed : UInt64) (value : Nat) : UInt64 := mix seed (UInt64.ofNat value)

def fingerprintRef (chan : ChanRef) : UInt64 :=
  match chan.index with
  | some index => mixNat (mixNat 3 chan.root.index) index.index
  | none => mixNat 5 chan.root.index

def fingerprintOp : Operator → UInt64
  | .seq => 11
  | .par => 13
  | .det => 17
  | .ndet => 19

mutual

def fingerprint : Trace → UInt64
  | .skip => 23
  | .stop => 29
  | .div => 31
  | .chaos => 37
  | .atom a => mixNat 41 a.id.index
  | .ref id => mixNat 43 id.index
  | .event .input chan => mix 47 (fingerprintRef chan)
  | .event .output chan => mix 53 (fingerprintRef chan)
  | .unresolved node => mixNat 59 node.index
  | .comp op children => fingerprintAll (fingerprintOp op) children
  | .fix binder body => mix (mixNat 61 binder.id.index) (fingerprint body)

def fingerprintAll (seed : UInt64) : List Trace → UInt64
  | [] => seed
  | t :: ts => fingerprintAll (mix seed (fingerprint t)) ts

end

end ProcessContracts.Trace
