import PlcMachine.Machine.Operation
import PlcMachine.Proofs.Machine.Delivery

/-! # What requests read and store

The accesses by which a request reads, and those that it stores by, as the active frame names them. From
these follows which bits of each frame's local data have been stored since the frame was entered.
-/

namespace PlcMachine

def Stored (as : List Access) (i : Nat) : Prop := ∃ a ∈ as, a.Covers i

instance (as : List Access) (i : Nat) : Decidable (Stored as i) :=
  inferInstanceAs (Decidable (∃ a ∈ as, a.Covers i))

/-- What was stored to the local data that an area names, if it names any. For each frame, the active one
first, the list has the accesses that stored to its local data. -/
def storedIn (stored : List (List Access)) : Area → Option (List Access)
  | .localData => stored.head?
  | .outerData => stored.tail.head?
  | _ => none

/-- All bits of an access to local or outer data have been stored. -/
def Known (stored : List (List Access)) (a : Access) : Prop :=
  ∀ as ∈ storedIn stored a.area, ∀ k < a.width.toNat, Stored as (a.offset.index + k)

instance (stored : List (List Access)) (a : Access) : Decidable (Known stored a) :=
  inferInstanceAs (Decidable (∀ as ∈ storedIn stored a.area, _))

def note (stored : List (List Access)) (a : Access) : List (List Access) :=
  match a.area, stored with
  | .localData, as :: rest => (a :: as) :: rest
  | .outerData, bs :: as :: rest => bs :: (a :: as) :: rest
  | _, _ => stored

namespace Machine

section Reads

/-- The access if it can be read. One that fails reads nothing. -/
def readsAt (m : Machine) (a : Access) : List Access :=
  match m.readAccess a with
  | .ok _ => [a]
  | .error _ => []

def readsOf (m : Machine) (op : Operand) : List Access :=
  match m.unslot op with
  | .ok (.memory l) => m.readsAt l.toAccess
  | _ => []

@[simp]
theorem readsOf_memory (m : Machine) (l : Location) : m.readsOf (.memory l) = m.readsAt l.toAccess := rfl

def readsOfBinding (m : Machine) (d : Option InstanceData) (b : Binding) : List Access :=
  match m.unslot b.actual, d with
  | .ok (.memory l), none => if l.passing = .copy then m.readsAt l.toAccess else []
  | .ok (.memory l), some _ =>
    if b.parameter.transfer b.direction (.memory l) = .value ∧ l.width = b.parameter.width ∧
        b.direction.isInbound then m.readsAt l.toAccess
    else []
  | _, _ => []

def bindStep (m : Machine) (point : CallPoint) (d : Option InstanceData) :
    Plan → Binding → Except CallError Plan :=
  match d with
  | some d => Planning.bindInstance ⟨m, point⟩ d
  | none => Planning.bindSlot ⟨m, point⟩

/-- What planning reads for bindings in their order, up to the first that cannot be planned. -/
def readsOfBindings (m : Machine) (point : CallPoint) (d : Option InstanceData) :
    List Binding → Plan → List Access
  | [], _ => []
  | b :: bs, plan => m.readsOfBinding d b ++
    match m.bindStep point d plan b with
    | .ok plan => m.readsOfBindings point d bs plan
    | .error _ => []

def readsOfEnter (m : Machine) (site : CallSite) : List Access :=
  if m.specs.maxCallDepth.toNat ≤ m.depth ∨ m.specs.localBytes < site.callee.tempBytes ∨ site.raw then []
  else
    match m.instanceFor site, site.orderedBindings (site.point m) with
    | .ok d, .ok bs => m.readsOfBindings (site.point m) d bs (.empty m.start)
    | _, _ => []

def readsOfOutput (m : Machine) (o : Outbound) : List Access :=
  match o.source with
  | .callerStack offset => m.readsAt ⟨.outerData, offset, o.width⟩
  | .instanceData _ _ => []

def readsOfLeave (m : Machine) : List Access :=
  match m.frames with
  | [] => []
  | f :: _ => if f.raw then [] else f.outbound.flatMap m.readsOfOutput

/-- The accesses by which a request reads as the active frame sees them. -/
def reads (m : Machine) : Operation → List Access
  | .fetch op | .resolve op | .follow op _ _ => m.readsOf op
  | .fetchParameter p => m.readsOf (m.parameterOperand p)
  | .followParameter p => m.readsOf (.memory ⟨m.instanceAccess p Pointer.width, false⟩)
  | .enter site => m.readsOfEnter site
  | .leave => m.readsOfLeave
  | _ => []

end Reads

section Stores

def storesOf (m : Machine) (op : Operand) : List Access :=
  match m.unslot op with
  | .ok (.memory l) => [l.toAccess]
  | _ => []

/-- Where staged writes go, up to the first that fails. -/
def storesOfWrites (m : Machine) : List StagedWrite → List Access
  | [] => []
  | w :: ws =>
    match m.makeWrite w with
    | .ok m => w.access :: m.storesOfWrites ws
    | .error _ => []

def storesOfOutputs (m : Machine) : List (Outbound × Except AccessError Value) → List Access
  | [] => []
  | (o, r) :: rest =>
    match r.bind (m.store o.actual) with
    | .ok m' => m.storesOf o.actual ++ m'.storesOfOutputs rest
    | .error _ => m.storesOfOutputs rest

def planFor (m : Machine) (site : CallSite) : Option Plan :=
  if m.specs.maxCallDepth.toNat ≤ m.depth ∨ m.specs.localBytes < site.callee.tempBytes then none
  else
    match m.instanceFor site with
    | .ok d => (m.plan (site.point m) site d).toOption
    | .error _ => none

def storesOfEnter (m : Machine) (site : CallSite) : List Access :=
  match m.planFor site with
  | some plan => m.storesOfWrites plan.writes
  | none => []

def storesOfLeave (m : Machine) (f : Frame) (rest : List Frame) : List Access :=
  if f.raw then []
  else
    let m := { m with frames := rest }
    ({ m with registers := f.saved } : Machine).storesOfOutputs
      (f.outbound.map fun o => (o, m.readOutbound o))

def recordStore {ε α : Type} (r : Except ε α) (made stored : List (List Access)) : List (List Access) :=
  match r with
  | .ok _ => made
  | .error _ => stored

theorem recordStore_self {ε α : Type} (r : Except ε α) (stored : List (List Access)) :
    recordStore r stored stored = stored := by
  cases r <;> rfl

def recordEntry (r : Except CallError Unit) (stored : List (List Access)) : List (List Access) :=
  match r with
  | .ok _ => [] :: stored
  | .error _ => stored

/-- What has been stored to the local data of each frame once a request is answered, from what had been
stored before. -/
def storedAfter (m : Machine) (stored : List (List Access)) : Operation → List (List Access)
  | .begin block => recordEntry (m.begin block).1 []
  | .enter site => recordEntry (m.enter site).1 ((m.storesOfEnter site).foldl note stored)
  | .leave =>
    match m.frames with
    | [] => stored
    | f :: rest => (m.storesOfLeave f rest).foldl note stored.tail
  | .store op v => recordStore (m.store op v) ((m.storesOf op).foldl note stored) stored
  | .storeParameter p v =>
    recordStore (m.storeParameter p v) ((m.storesOf (m.parameterOperand p)).foldl note stored) stored
  | _ => stored

end Stores

end Machine

end PlcMachine
