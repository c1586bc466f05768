import Mathlib.Data.List.Infix
import PlcMachine.Proofs.Calls.Bracket
import PlcMachine.Proofs.Machine.AgreePlanning

/-! # Pooling is unobservable

A controller that reuses local stacks answers every request like one that takes a fresh, zeroed local
stack for each frame, as long as no request reads bits of local data that have not been stored since their
frame was entered.
-/

namespace PlcMachine

namespace Machine

/-- Enters a block like `enter`, but on a fresh local stack. -/
def enterFresh (m : Machine) (site : CallSite) : Except CallError Unit × Machine :=
  if m.specs.maxCallDepth.toNat ≤ m.depth then
    (.error (.depthExceeded (site.point m) m.specs.maxCallDepth.toNat), m)
  else
    match m.instanceFor site with
    | .error e => (.error e, m)
    | .ok instanceData => m.enterOn site instanceData (.zeroed m.specs.localBytes)

def beginFresh (m : Machine) (block : Block) : Except CallError Unit × Machine :=
  let cleared := m.frames.foldl (fun m f => m.release f.stack) { m with frames := [] }
  { cleared with registers := .zero }.enterFresh (.unconditional block)

/-- Answers a request like `perform`, but takes a fresh local stack for each frame. -/
def performFresh (m : Machine) : Operation → Except OperationError Reply × Machine
  | .begin block => called (m.beginFresh block)
  | .enter site => called (m.enterFresh site)
  | op => m.perform op

def runFresh (m : Machine) (ops : List Operation) : Machine :=
  ops.foldl (fun m op => (m.performFresh op).2) m

/-- The replies to a list of requests, where one answers as `perform` says. -/
def replies (perform : Machine → Operation → Except OperationError Reply × Machine) :
    Machine → List Operation → List (Except OperationError Reply)
  | _, [] => []
  | m, op :: ops => (perform m op).1 :: replies perform (perform m op).2 ops

/-- What has been stored to the local data of each frame once a list of requests is answered. -/
def storedAfterAll (m : Machine) (stored : List (List Access)) : List Operation → List (List Access)
  | [] => stored
  | op :: ops => (m.after op).storedAfterAll (m.storedAfter stored op) ops

/-- Each of the requests reads only local data that has been stored. -/
def ReadsKnown (m : Machine) (stored : List (List Access)) : List Operation → Prop
  | [] => True
  | op :: ops =>
    (∀ a ∈ m.reads op, Known stored a) ∧ (m.after op).ReadsKnown (m.storedAfter stored op) ops

instance decidableReadsKnown (m : Machine) (stored : List (List Access)) :
    (ops : List Operation) → Decidable (m.ReadsKnown stored ops)
  | [] => .isTrue trivial
  | op :: ops =>
    have := decidableReadsKnown (m.after op) (m.storedAfter stored op) ops
    inferInstanceAs (Decidable (_ ∧ _))

theorem storesOfWrites_pool (m : Machine) (pool : Pool) (ws : List StagedWrite) :
    ({ m with pool } : Machine).storesOfWrites ws = m.storesOfWrites ws := by
  induction ws generalizing m with
  | nil => rfl
  | cons w ws ih =>
    unfold storesOfWrites
    rw [makeWrite_pool]
    cases m.makeWrite w with
    | error e => rfl
    | ok m' => exact congrArg _ (ih m')

theorem storesOfEnter_pool (m : Machine) (pool : Pool) (site : CallSite) :
    ({ m with pool } : Machine).storesOfEnter site = m.storesOfEnter site := by
  have hplan : ({ m with pool } : Machine).planFor site = m.planFor site := rfl
  unfold storesOfEnter
  rw [hplan]
  cases m.planFor site with
  | none => rfl
  | some plan => exact storesOfWrites_pool m pool _

theorem readsOfBindings_pool (m : Machine) (pool : Pool) (point : CallPoint) (d : Option InstanceData)
    (bs : List Binding) (plan : Plan) :
    ({ m with pool } : Machine).readsOfBindings point d bs plan = m.readsOfBindings point d bs plan := by
  induction bs generalizing plan with
  | nil => rfl
  | cons b bs ih =>
    have hstep : ({ m with pool } : Machine).bindStep point d plan b = m.bindStep point d plan b := by
      cases d <;> rfl
    unfold readsOfBindings
    rw [hstep]
    cases m.bindStep point d plan b with
    | error e => rfl
    | ok plan' => exact congrArg _ (ih plan')

theorem readsOfEnter_pool (m : Machine) (pool : Pool) (site : CallSite) :
    ({ m with pool } : Machine).readsOfEnter site = m.readsOfEnter site := by
  unfold readsOfEnter
  simp only [readsOfBindings_pool]
  rfl

theorem readsOfEnter_of_raw (m : Machine) {site : CallSite} (hraw : site.raw = true) :
    m.readsOfEnter site = [] := by
  simp [readsOfEnter, hraw]

theorem storesOfEnter_of_raw (m : Machine) {site : CallSite} (hraw : site.raw = true) :
    m.storesOfEnter site = [] := by
  have hplan : ∀ d, m.plan (site.point m) site d = .ok (.empty m.start) := by
    intro d
    unfold Machine.plan
    rw [if_pos hraw]
    rfl
  unfold storesOfEnter planFor
  split_ifs
  · rfl
  · cases m.instanceFor site with
    | error e => rfl
    | ok d =>
      dsimp only
      rw [hplan]
      rfl

end Machine

namespace Agree

variable {stored : List (List Access)} {p q : Machine}

theorem withPool (h : Agree stored p q) {pool : Pool} (hpool : pool.owner = p.id) :
    Agree stored { p with pool } q :=
  ⟨h.specs, h.registers, h.memory, hpool.trans h.id, h.frames⟩

theorem release (h : Agree stored p q) (s t : LocalStack) : Agree stored (p.release s) (q.release t) :=
  ⟨h.specs, h.registers, h.memory, by rw [Machine.id_release, Machine.id_release, h.id], h.frames⟩

theorem setCursor (h : Agree stored p q) (c : Cursor) : Agree stored (p.setCursor c) (q.setCursor c) := by
  rw [Machine.setCursor_eq, Machine.setCursor_eq]
  exact ⟨h.specs, h.registers, h.memory, h.id, h.frames.rewind c⟩

section Entering

variable {site : CallSite} {d : Option InstanceData} {s t : LocalStack}

theorem newFrame (h : Agree stored p q) (site : CallSite) (d : Option InstanceData) (plan : Plan)
    (hsize : s.bytes.size = t.bytes.size) (hcursor : s.cursor = t.cursor) :
    (p.newFrame site d plan s).Agrees [] (q.newFrame site d plan t) := by
  constructor
  · obtain ⟨bytes, cursor⟩ := s
    obtain ⟨bytes', cursor'⟩ := t
    obtain rfl : cursor = cursor' := hcursor
    have hbytes : bytes.blank = bytes'.blank := congrArg ByteStore.zeroed hsize
    simp only [Machine.newFrame, Frame.blank, h.registers, h.mark_eq, hbytes]
  · rintro i ⟨a, ha, -⟩
    cases ha

/-- Once a call is planned, it ends alike on any two local stacks of one size. -/
theorem commit (h : Agree stored p q) (site : CallSite) (d : Option InstanceData) (plan : Plan)
    (hsize : s.bytes.size = t.bytes.size) (hcursor : s.cursor = t.cursor) :
    (p.commit site d plan s).1 = (q.commit site d plan t).1 ∧
      Agree (Machine.recordEntry (p.commit site d plan s).1 ((p.storesOfWrites plan.writes).foldl note stored))
        (p.commit site d plan s).2 (q.commit site d plan t).2 := by
  obtain ⟨hfailure, hmade⟩ := h.makeWrites plan.writes
  unfold Machine.commit
  cases hp : p.makeWrites plan.writes with
  | mk failure p' =>
    cases hq : q.makeWrites plan.writes with
    | mk failure' q' =>
      rw [hp, hq] at hfailure hmade
      obtain rfl : failure = failure' := hfailure
      cases failure with
      | some e =>
        refine ⟨?_, hmade.release s t⟩
        rw [h.point_eq]
      | none =>
        obtain ⟨hspecs, -, hmemory, hid, hframes⟩ := hmade.setCursor plan.cursor
        have hregisters : p.calleeRegisters site d plan = q.calleeRegisters site d plan := by
          unfold Machine.calleeRegisters
          rw [h.registers]
        exact ⟨rfl, hspecs, hregisters, hmemory, hid, .cons (h.newFrame site d plan hsize hcursor) hframes⟩

theorem enterOn (h : Agree stored p q) (hdepth : p.depth < p.specs.maxCallDepth.toNat)
    (hd : p.instanceFor site = .ok d) (hknown : ∀ a ∈ p.readsOfEnter site, Known stored a)
    (s t : LocalStack) :
    (p.enterOn site d s).1 = (q.enterOn site d t).1 ∧
      Agree (Machine.recordEntry (p.enterOn site d s).1 ((p.storesOfEnter site).foldl note stored))
        (p.enterOn site d s).2 (q.enterOn site d t).2 := by
  unfold Machine.enterOn LocalStack.reset Machine.storesOfEnter Machine.planFor
  rw [← h.specs]
  by_cases htemps : p.specs.localBytes < site.callee.tempBytes
  · simp only [htemps, or_true, ↓reduceIte]
    refine ⟨?_, h.release s t⟩
    rw [h.point_eq]
  · simp only [htemps, or_false, Nat.not_le.mpr hdepth, ↓reduceIte, hd]
    rw [← h.plan_eq hdepth htemps hd hknown]
    cases p.plan (site.point p) site d with
    | error e => exact ⟨rfl, h.release _ _⟩
    | ok plan =>
      refine h.commit site d plan ?_ rfl
      simp

theorem enter (h : Agree stored p q) (site : CallSite)
    (hknown : ∀ a ∈ p.readsOfEnter site, Known stored a) :
    (p.enter site).1 = (q.enterFresh site).1 ∧
      Agree (Machine.recordEntry (p.enter site).1 ((p.storesOfEnter site).foldl note stored))
        (p.enter site).2 (q.enterFresh site).2 := by
  unfold Machine.enter Machine.enterFresh
  rw [← h.specs, ← h.depth_eq, ← h.instanceFor_eq, ← h.point_eq]
  by_cases hdepth : p.specs.maxCallDepth.toNat ≤ p.depth
  · simp only [hdepth, ↓reduceIte, Machine.storesOfEnter, Machine.planFor, true_or]
    exact ⟨trivial, h⟩
  · simp only [hdepth, ↓reduceIte]
    cases hd : p.instanceFor site with
    | error e =>
      simp only [Machine.storesOfEnter, Machine.planFor, hd]
      refine ⟨trivial, ?_⟩
      split_ifs <;> exact h
    | ok d =>
      have hpooled : Agree stored { p with pool := (p.pool.acquire p.id).2 } q :=
        h.withPool (Pool.owner_acquire _ _)
      have hentered := hpooled.enterOn (Nat.not_le.mp hdepth) hd
        (by rwa [Machine.readsOfEnter_pool]) (p.pool.acquire p.id).1 (.zeroed p.specs.localBytes)
      rw [Machine.storesOfEnter_pool] at hentered
      exact hentered

end Entering

theorem begin (h : Agree stored p q) (block : Block) :
    (p.begin block).1 = (q.beginFresh block).1 ∧
      Agree (Machine.recordEntry (p.begin block).1 []) (p.begin block).2 (q.beginFresh block).2 := by
  obtain ⟨pool, hpool, hp⟩ := Machine.foldl_release p.frames { p with frames := [] }
  obtain ⟨pool', hpool', hq⟩ := Machine.foldl_release q.frames { q with frames := [] }
  have hcleared : Agree [] { p with frames := [], registers := .zero, pool }
      { q with frames := [], registers := .zero, pool := pool' } :=
    ⟨h.specs, rfl, h.memory, hpool.trans (h.id.trans hpool'.symm), .nil⟩
  have hentered := hcleared.enter (.unconditional block)
    (by rw [Machine.readsOfEnter_of_raw _ rfl]; exact List.forall_mem_nil _)
  rw [Machine.storesOfEnter_of_raw _ rfl] at hentered
  unfold Machine.begin Machine.beginFresh
  rw [hp, hq]
  exact hentered

section Leaving

theorem readOutbound_eq (h : Agree stored p q) {f : Frame} {fs gs : List Frame} (hf : p.frames = f :: fs)
    (hcallers : Agree stored.tail { p with frames := fs } { q with frames := gs }) {o : Outbound}
    (hknown : ∀ a ∈ p.readsOfOutput o, Known stored a) :
    ({ p with frames := fs } : Machine).readOutbound o =
      ({ q with frames := gs } : Machine).readOutbound o := by
  obtain ⟨parameter, actual, source, width⟩ := o
  cases source with
  | instanceData block offset =>
    unfold Machine.readOutbound
    dsimp only
    rw [h.memory]
  | callerStack offset =>
    refine hcallers.readAccess_eq fun a ha => ?_
    unfold Machine.readsAt at ha
    split at ha
    · next v hv =>
      obtain rfl := List.mem_singleton.mp ha
      have houter : p.readAccess ⟨.outerData, offset, width⟩ = .ok v :=
        Machine.readAccess_outer_of_local hf rfl hv
      exact hknown ⟨.outerData, offset, width⟩ (by simp [Machine.readsOfOutput, Machine.readsAt, houter])
    · cases ha

theorem discard (h : Agree stored p q) {f g : Frame} (hmark : f.callerMark = g.callerMark) :
    Agree stored (p.discard f) (q.discard g) := by
  unfold Machine.discard
  rw [← hmark]
  cases f.callerMark with
  | none => exact h.release _ _
  | some mark => exact (h.setCursor mark).release _ _

theorem returnOutputs (h : Agree stored p q) {f g : Frame} {fs gs : List Frame} {as : List Access}
    (hp : p.frames = f :: fs) (head : f.Agrees as g)
    (hcallers : Agree stored.tail { p with frames := fs } { q with frames := gs })
    (hknown : ∀ a ∈ p.readsOfLeave, Known stored a) :
    (({ p with frames := fs } : Machine).returnOutputs f.beginExit).1 =
        (({ q with frames := gs } : Machine).returnOutputs g.beginExit).1 ∧
      Agree ((p.storesOfLeave f fs).foldl note stored.tail)
        (({ p with frames := fs } : Machine).returnOutputs f.beginExit).2
        (({ q with frames := gs } : Machine).returnOutputs g.beginExit).2 := by
  have hraw : f.raw = g.raw := (congrArg Frame.raw head.blank :)
  have hsaved : f.saved = g.saved := (congrArg Frame.saved head.blank :)
  have hout : f.outbound = g.outbound := (congrArg Frame.outbound head.blank :)
  unfold Machine.returnOutputs Machine.storesOfLeave
  simp only [Frame.beginExit, ← hraw, ← hsaved, ← hout]
  by_cases hf : f.raw = true
  · simp only [hf, ↓reduceIte]
    exact ⟨trivial, hcallers⟩
  · have hvalues : (f.outbound.map fun o => (o, ({ p with frames := fs } : Machine).readOutbound o)) =
        f.outbound.map fun o => (o, ({ q with frames := gs } : Machine).readOutbound o) := by
      refine List.map_congr_left fun o ho => ?_
      rw [h.readOutbound_eq hp hcallers fun a ha => hknown a ?_]
      simp only [Machine.readsOfLeave, hp, hf, Bool.false_eq_true, ↓reduceIte]
      exact List.mem_flatMap.mpr ⟨o, ho, ha⟩
    have hrestored : Agree stored.tail { p with frames := fs, registers := f.saved }
        { q with frames := gs, registers := f.saved } :=
      ⟨h.specs, rfl, h.memory, h.id, hcallers.frames⟩
    simp only [hf, Bool.false_eq_true, ↓reduceIte]
    rw [← hvalues]
    exact hrestored.writeBack _

theorem leave (h : Agree stored p q) (hknown : ∀ a ∈ p.readsOfLeave, Known stored a) :
    p.leave.1 = q.leave.1 ∧ Agree (p.storedAfter stored .leave) p.leave.2 q.leave.2 := by
  unfold Machine.storedAfter
  obtain ⟨rfl, hp, hq⟩ | ⟨as, rest, f, fs, g, gs, rfl, hp, hq, head, tail⟩ := h.frames.eq_nil_or_cons
  · rw [Machine.leave_of_nil hp, Machine.leave_of_nil hq, hp]
    exact ⟨rfl, h⟩
  · have hlabel : f.block.label = g.block.label := (congrArg (·.block.label) head.blank :)
    have hmark : f.callerMark = g.callerMark := (congrArg Frame.callerMark head.blank :)
    have hcallers : Agree rest { p with frames := fs } { q with frames := gs } :=
      ⟨h.specs, h.registers, h.memory, h.id, tail⟩
    obtain ⟨hfailures, hreturned⟩ := h.returnOutputs hp head hcallers hknown
    unfold Machine.leave
    rw [hp, hq]
    dsimp only
    rw [hfailures, hlabel]
    exact ⟨rfl, hreturned.discard hmark⟩

end Leaving

section Answering

theorem called {r r' : Except CallError Unit × Machine} (h : r.1 = r'.1 ∧ Agree stored r.2 r'.2) :
    (Machine.called r).1 = (Machine.called r').1 ∧
      Agree stored (Machine.called r).2 (Machine.called r').2 := by
  obtain ⟨hreply, hagree⟩ := h
  refine ⟨?_, hagree⟩
  unfold Machine.called
  rw [hreply]

theorem answer (h : Agree stored p q) {ε α : Type} (wrap : ε → OperationError) (reply : α → Reply)
    {r r' : Except ε α} (hr : r = r') : (p.answer wrap reply r).1 = (q.answer wrap reply r').1 ∧
      Agree stored (p.answer wrap reply r).2 (q.answer wrap reply r').2 := by
  subst hr
  cases r with
  | ok a => exact ⟨rfl, h⟩
  | error e => exact ⟨rfl, h⟩

theorem become {made : List (List Access)} (h : Agree stored p q) {ε : Type}
    (wrap : ε → OperationError) {r r' : Except ε Machine} (hr : OutcomesAgree made r r') :
    (p.become wrap r).1 = (q.become wrap r').1 ∧
      Agree (Machine.recordStore r made stored) (p.become wrap r).2 (q.become wrap r').2 := by
  cases hr with
  | ok h' => exact ⟨rfl, h'⟩
  | error e => exact ⟨rfl, h⟩

theorem becomeKept (h : Agree stored p q) {ε : Type} (wrap : ε → OperationError)
    {r r' : Except ε Machine} (hr : OutcomesAgree stored r r') :
    (p.become wrap r).1 = (q.become wrap r').1 ∧
      Agree stored (p.become wrap r).2 (q.become wrap r').2 := by
  have hbecome := h.become wrap hr
  rwa [Machine.recordStore_self] at hbecome

theorem openBlock (h : Agree stored p q) (number : UInt16) :
    OutcomesAgree stored (p.openBlock number) (q.openBlock number) := by
  unfold Machine.openBlock
  rw [← h.memory, ← h.registers]
  cases p.memory.block number with
  | error e => exact .error e
  | ok block => exact .ok ⟨h.specs, rfl, rfl, h.id, h.frames⟩

theorem reconfigure (h : Agree stored p q) (specs : Specs) :
    OutcomesAgree stored (p.reconfigure specs) (q.reconfigure specs) := by
  unfold Machine.reconfigure
  rw [← h.memory]
  cases specs.validate with
  | error e => exact .error e
  | ok valid => exact .ok ⟨rfl, h.registers, rfl, h.id, h.frames⟩

theorem setIp (h : Agree stored p q) (ip : Nat) : Agree stored (p.setIp ip) (q.setIp ip) := by
  unfold Machine.setIp
  obtain ⟨rfl, hp, hq⟩ | ⟨as, rest, f, fs, g, gs, rfl, hp, hq, head, tail⟩ := h.frames.eq_nil_or_cons
  · rw [hp, hq]
    exact h
  · rw [hp, hq]
    refine ⟨h.specs, h.registers, h.memory, h.id, .cons (head.of_blank_eq ?_ rfl rfl) tail⟩
    exact congrArg (fun f => { f with ip }) head.blank

/-- Controllers that agree answer a request alike and agree again, where the second takes fresh local
stacks, if the request reads only what has been stored. -/
theorem perform (h : Agree stored p q) (op : Operation) (hknown : ∀ a ∈ p.reads op, Known stored a) :
    (p.perform op).1 = (q.performFresh op).1 ∧
      Agree (p.storedAfter stored op) (p.perform op).2 (q.performFresh op).2 := by
  cases op with
  | begin block => exact called (h.begin block)
  | enter site => exact called (h.enter site hknown)
  | leave => exact called (h.leave hknown)
  | fetch op => exact h.answer _ _ (h.fetch_eq hknown)
  | resolve op => exact h.answer _ _ (h.resolve_eq hknown)
  | resolveSlot index => exact h.answer _ _ (h.resolveSlot_eq index)
  | fetchParameter param => exact h.answer _ _ (h.fetchParameter_eq hknown)
  | followParameter param => exact h.answer _ _ (h.followParameter_eq hknown)
  | follow pointer width compound => exact h.answer _ _ (h.follow_eq hknown width compound)
  | store op v => exact h.become _ (h.store op v)
  | storeParameter param v => exact h.become _ (h.storeParameter param v)
  | parameterOperand param => exact ⟨congrArg (Except.ok ∘ Reply.operand) (h.parameterOperand_eq param), h⟩
  | openBlock number => exact h.becomeKept _ (h.openBlock number)
  | setRegisters registers => exact ⟨rfl, h.specs, rfl, h.memory, h.id, h.frames⟩
  | setInstanceBase base =>
    exact ⟨rfl, h.specs, congrArg (·.setInstanceBase base) h.registers, h.memory, h.id, h.frames⟩
  | setIp ip =>
    refine ⟨?_, h.setIp ip⟩
    change Except.ok (Reply.acted (0 < p.depth)) = Except.ok (Reply.acted (0 < q.depth))
    rw [h.depth_eq]
  | reconfigure specs => exact h.becomeKept _ (h.reconfigure specs)
  | memory op =>
    unfold Machine.perform Machine.performFresh
    dsimp only
    unfold Machine.perform
    dsimp only
    rw [← h.memory]
    exact ⟨rfl, h.specs, h.registers, rfl, h.id, h.frames⟩

end Answering

end Agree

namespace Machine

theorem readsKnown_of_append {m : Machine} {stored : List (List Access)} {ops ops' : List Operation}
    (h : m.ReadsKnown stored (ops ++ ops')) : m.ReadsKnown stored ops := by
  induction ops generalizing m stored with
  | nil => trivial
  | cons op ops ih => exact ⟨h.1, ih h.2⟩

theorem run_agree {stored : List (List Access)} {p q : Machine} {ops : List Operation}
    (h : Agree stored p q) (hknown : p.ReadsKnown stored ops) :
    replies perform p ops = replies performFresh q ops ∧
      Agree (p.storedAfterAll stored ops) (p.run ops) (q.runFresh ops) := by
  induction ops generalizing stored p q with
  | nil => exact ⟨rfl, h⟩
  | cons op ops ih =>
    obtain ⟨hreply, hagree⟩ := h.perform op hknown.1
    obtain ⟨hreplies, hrun⟩ := ih hagree hknown.2
    refine ⟨?_, hrun⟩
    unfold replies
    rw [hreply]
    exact congrArg _ hreplies

/-- A controller that reuses local stacks answers like one that takes a fresh one for each frame, and both
stay the same but for their pools and bits of local data that were not stored since their frame was entered,
as long as no request reads such a bit. -/
theorem replies_perform_eq {id : MachineId} {specs : Specs} {ops : List Operation}
    (hknown : (ofSpecs id specs).ReadsKnown [] ops) :
    replies perform (ofSpecs id specs) ops = replies performFresh (ofSpecs id specs) ops ∧
      ∀ before ∈ ops.inits, Agree ((ofSpecs id specs).storedAfterAll [] before)
        ((ofSpecs id specs).run before) ((ofSpecs id specs).runFresh before) := by
  have hstart : Agree [] (ofSpecs id specs) (ofSpecs id specs) := ⟨rfl, rfl, rfl, rfl, .nil⟩
  refine ⟨(run_agree hstart hknown).1, ?_⟩
  intro before hbefore
  obtain ⟨rest, rfl⟩ := (List.mem_inits before ops).mp hbefore
  exact (run_agree hstart (readsKnown_of_append hknown)).2

namespace Pooled

open Bracketed in
/-- Requests by which a block is entered again on a local stack that it has used: with a parameter that it
passes on, whose copy is written back, and then with a temporary that it stores before it reads it. -/
def requests : List Operation :=
  [.begin ⟨.organization, 1, "", 2, []⟩, .store temporary (.scalar 7), .enter (site temporary),
    .store temporary (.scalar 9), .enter (site (.slot 0)), .store (.slot 0) (.scalar 5), .leave, .leave,
    .enter (site temporary), .store temporary (.scalar 4), .fetch temporary, .leave, .fetch temporary]

def controller : Machine := ofSpecs ⟨0⟩ ⟨8, 4, 4, 1, 1, 1, 1⟩

end Pooled

open Pooled in
/-- The replies are the same, although the block finds other local data. -/
theorem replies_perform_eq_reused :
    replies perform controller requests = replies performFresh controller requests ∧
      (controller.run (requests.take 9)).frames ≠ (controller.runFresh (requests.take 9)).frames := by
  have hknown : controller.ReadsKnown [] requests := by decide +kernel
  refine ⟨(replies_perform_eq hknown).1, ?_⟩
  decide +kernel

end Machine

end PlcMachine
