import PlcMachine.Proofs.Machine.Access
import PlcMachine.Proofs.Strict.Allocation

/-! # Operands step by step

Operands are read and written in the steps that this consists of. The frame below the active one is looked
up by its index, counted from the frame that was entered first.
-/

namespace PlcMachine

open Strict

namespace Machine

def outerFrameStrict (m : Machine) : Strict AccessError Frame :=
  match m.frames.length with
  | 0 => throw .noActiveFrame
  | 1 => throw .noOuterFrame
  | n => step m.frames.reverse[n - 2]?

def readAccessStrict (m : Machine) (a : Access) : Strict AccessError Value :=
  match a.area with
  | .localData =>
    match m.frames with
    | f :: _ => f.stack.readStrict a
    | [] => throw .noActiveFrame
  | .outerData => do (← m.outerFrameStrict).stack.readStrict a
  | .instanceData => m.memory.readStrict { a with area := .dataBlock m.registers.di }
  | _ => m.memory.readStrict a

def writeAccessStrict (m : Machine) (a : Access) (v : Value) : Strict AccessError Machine :=
  match a.area with
  | .localData =>
    match m.frames with
    | f :: rest => do return { m with frames := { f with stack := ← f.stack.writeStrict a v } :: rest }
    | [] => throw .noActiveFrame
  | .outerData => do
    let f ← m.outerFrameStrict
    let stack ← f.stack.writeStrict a v
    let frames ← step (set? m.frames.reverse.toArray (m.frames.length - 2) { f with stack })
    return { m with frames := frames.toList.reverse }
  | .instanceData => do
    return { m with memory := ← m.memory.writeStrict { a with area := .dataBlock m.registers.di } v }
  | _ => do return { m with memory := ← m.memory.writeStrict a v }

def fetchStrict (m : Machine) (op : Operand) : Strict AccessError Value := do
  match ← total (m.unslot op) with
  | .immediate value _ _ => return value
  | .block _ number => return .scalar number.toUInt32
  | .memory l => m.readAccessStrict l.toAccess
  | .slot index => throw (.unboundSlot index)

def storeStrict (m : Machine) (op : Operand) (v : Value) : Strict AccessError Machine := do
  match ← total (m.unslot op) with
  | .immediate _ _ _ | .block _ _ => throw .constantStore
  | .memory l => m.writeAccessStrict l.toAccess v
  | .slot index => throw (.unboundSlot index)

def resolveStrict (m : Machine) (op : Operand) : Strict AccessError Value := do
  total op.validate
  m.fetchStrict op

def instanceAccessStrict (m : Machine) (p : Parameter) (width : UInt32) : Strict AccessError Access := do
  return ⟨.dataBlock m.registers.di, ← step (m.registers.instanceBase.add? p.offset), width⟩

def parameterOperandStrict (m : Machine) (p : Parameter) : Strict AccessError Operand := do
  return .memory ⟨← m.instanceAccessStrict p p.width, p.compound⟩

def fetchParameterStrict (m : Machine) (p : Parameter) : Strict AccessError Value := do
  m.fetchStrict (← m.parameterOperandStrict p)

def storeParameterStrict (m : Machine) (p : Parameter) (v : Value) : Strict AccessError Machine := do
  m.storeStrict (← m.parameterOperandStrict p) v

def followStrict (m : Machine) (pointer : Operand) (width : UInt32) (compound : Bool) :
    Strict AccessError Location := do
  let p ← total (Pointer.ofValue (← m.fetchStrict pointer))
  total (p.target width compound)

def followParameterStrict (m : Machine) (p : Parameter) : Strict AccessError Location := do
  m.followStrict (.memory ⟨← m.instanceAccessStrict p Pointer.width, false⟩) p.width p.compound

section Frames

variable {m : Machine} {g f : Frame} {rest : List Frame}

theorem outerFrameStrict_of_nil (hf : m.frames = []) :
    m.outerFrameStrict = total (.error .noActiveFrame) := by
  unfold outerFrameStrict
  rw [hf]
  rfl

theorem outerFrameStrict_of_singleton (hf : m.frames = [f]) :
    m.outerFrameStrict = total (.error .noOuterFrame) := by
  unfold outerFrameStrict
  rw [hf]
  rfl

theorem outerFrameStrict_eq (hf : m.frames = g :: f :: rest) : m.outerFrameStrict = total (.ok f) := by
  have hlast : (g :: f :: rest).reverse[rest.length]? = some f := by simp
  unfold outerFrameStrict
  rw [hf]
  exact congrArg step hlast

theorem set_outerFrame (f' : Frame) :
    set? (g :: f :: rest).reverse.toArray ((g :: f :: rest).length - 2) f' =
      some (g :: f' :: rest).reverse.toArray := by
  unfold set?
  rw [if_pos (by simp)]
  simp

end Frames

variable (m : Machine)

theorem readAccessStrict_eq (a : Access) : m.readAccessStrict a = total (m.readAccess a) := by
  obtain ⟨area, offset, width⟩ := a
  cases area with
  | localData =>
    unfold readAccessStrict readAccess
    cases m.frames with
    | nil => rfl
    | cons f rest => exact f.stack.readStrict_eq _
  | outerData =>
    unfold readAccessStrict readAccess
    match hf : m.frames with
    | [] =>
      rw [outerFrameStrict_of_nil hf]
      rfl
    | [f] =>
      rw [outerFrameStrict_of_singleton hf]
      rfl
    | g :: f :: rest =>
      dsimp only
      rw [outerFrameStrict_eq hf, total_ok_bind]
      exact f.stack.readStrict_eq _
  | _ =>
    rw [readAccess_global rfl, ← m.memory.readStrict_eq]
    rfl

theorem writeAccessStrict_eq (a : Access) (v : Value) :
    m.writeAccessStrict a v = total (m.writeAccess a v) := by
  obtain ⟨area, offset, width⟩ := a
  cases area with
  | localData =>
    unfold writeAccessStrict writeAccess
    cases m.frames with
    | nil => rfl
    | cons f rest => exact bind_total (f.stack.writeStrict_eq _ _) fun _ _ => rfl
  | outerData =>
    unfold writeAccessStrict writeAccess
    match hf : m.frames with
    | [] =>
      rw [outerFrameStrict_of_nil hf]
      rfl
    | [f] =>
      rw [outerFrameStrict_of_singleton hf]
      rfl
    | g :: f :: rest =>
      dsimp only
      rw [outerFrameStrict_eq hf, total_ok_bind]
      refine bind_total (f.stack.writeStrict_eq _ _) fun stack _ => ?_
      rw [set_outerFrame, step_bind rfl]
      simp
      rfl
  | _ =>
    rw [writeAccess_eq_map rfl]
    exact bind_total (m.memory.writeStrict_eq _ _) fun _ _ => rfl

theorem fetchStrict_eq (op : Operand) : m.fetchStrict op = total (m.fetch op) := by
  refine bind_total rfl fun actual _ => ?_
  cases actual with
  | memory l => exact m.readAccessStrict_eq _
  | immediate _ _ _ | block _ _ | slot _ => rfl

theorem storeStrict_eq (op : Operand) (v : Value) : m.storeStrict op v = total (m.store op v) := by
  refine bind_total rfl fun actual _ => ?_
  cases actual with
  | memory l => exact m.writeAccessStrict_eq _ _
  | immediate _ _ _ | block _ _ | slot _ => rfl

theorem resolveStrict_eq (op : Operand) : m.resolveStrict op = total (m.resolve op) :=
  bind_total rfl fun _ _ => m.fetchStrict_eq op

theorem instanceAccessStrict_eq (p : Parameter) (width : UInt32) :
    m.instanceAccessStrict p width = total (.ok (m.instanceAccess p width)) :=
  step_bind (BitAddress.add?_eq _ _) _

theorem parameterOperandStrict_eq (p : Parameter) :
    m.parameterOperandStrict p = total (.ok (m.parameterOperand p)) := by
  unfold parameterOperandStrict
  rw [instanceAccessStrict_eq]
  rfl

theorem fetchParameterStrict_eq (p : Parameter) :
    m.fetchParameterStrict p = total (m.fetchParameter p) := by
  unfold fetchParameterStrict
  rw [parameterOperandStrict_eq, total_ok_bind]
  exact m.fetchStrict_eq _

theorem storeParameterStrict_eq (p : Parameter) (v : Value) :
    m.storeParameterStrict p v = total (m.storeParameter p v) := by
  unfold storeParameterStrict
  rw [parameterOperandStrict_eq, total_ok_bind]
  exact m.storeStrict_eq _ _

theorem followStrict_eq (pointer : Operand) (width : UInt32) (compound : Bool) :
    m.followStrict pointer width compound = total (m.follow pointer width compound) :=
  bind_total (m.fetchStrict_eq pointer) fun _ _ => bind_total rfl fun _ _ => rfl

theorem followParameterStrict_eq (p : Parameter) :
    m.followParameterStrict p = total (m.followParameter p) := by
  unfold followParameterStrict
  rw [instanceAccessStrict_eq, total_ok_bind]
  exact m.followStrict_eq _ _ _

end Machine

end PlcMachine
