/-! # Machine dimensions

The dimensions of a simulated controller, partial dimensions as a settings file gives them, and the
bounds that dimensions have to respect.
-/

namespace PlcMachine

structure Specs where
  localBytes : UInt32
  maxCallDepth : UInt64
  flagBytes : UInt32
  inputBytes : UInt32
  outputBytes : UInt32
  timers : UInt32
  counters : UInt32
deriving DecidableEq, Repr

structure PartialSpecs where
  localBytes : Option UInt32
  maxCallDepth : Option UInt64
  flagBytes : Option UInt32
  inputBytes : Option UInt32
  outputBytes : Option UInt32
  timers : Option UInt32
  counters : Option UInt32
deriving DecidableEq, Repr

inductive SpecsFault where
  | localBytes
  | maxCallDepth
  | timers
  | counters
deriving DecidableEq, Repr

namespace SpecsFault

def key : SpecsFault → String
  | .localBytes => "local_bytes"
  | .maxCallDepth => "max_call_depth"
  | .timers => "timers"
  | .counters => "counters"

def reason : SpecsFault → String
  | .localBytes => "must be within 1..=65536"
  | .maxCallDepth => "must be within 1..=4096"
  | .timers | .counters => "at most 65536 cells are addressable"

end SpecsFault

namespace PartialSpecs

def empty : PartialSpecs := ⟨none, none, none, none, none, none, none⟩

end PartialSpecs

namespace Specs

def standard : Specs := ⟨1024, 256, 8192, 8192, 8192, 2048, 2048⟩

def overlay (s : Specs) (p : PartialSpecs) : Specs where
  localBytes := p.localBytes.getD s.localBytes
  maxCallDepth := p.maxCallDepth.getD s.maxCallDepth
  flagBytes := p.flagBytes.getD s.flagBytes
  inputBytes := p.inputBytes.getD s.inputBytes
  outputBytes := p.outputBytes.getD s.outputBytes
  timers := p.timers.getD s.timers
  counters := p.counters.getD s.counters

def LocalBytesValid (s : Specs) : Prop := 1 ≤ s.localBytes ∧ s.localBytes ≤ 65536

def MaxCallDepthValid (s : Specs) : Prop := 1 ≤ s.maxCallDepth ∧ s.maxCallDepth ≤ 4096

instance (s : Specs) : Decidable s.LocalBytesValid := inferInstanceAs (Decidable (_ ∧ _))

instance (s : Specs) : Decidable s.MaxCallDepthValid := inferInstanceAs (Decidable (_ ∧ _))

/-- The first dimension out of bounds, in the order local data, call depth, timers, counters. -/
def validate (s : Specs) : Except SpecsFault Unit :=
  if ¬ s.LocalBytesValid then .error .localBytes
  else if ¬ s.MaxCallDepthValid then .error .maxCallDepth
  else if 65536 < s.timers then .error .timers
  else if 65536 < s.counters then .error .counters
  else .ok ()

end Specs

end PlcMachine
