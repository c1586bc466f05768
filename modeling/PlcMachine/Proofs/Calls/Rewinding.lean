import PlcMachine.Proofs.Calls.Bracket
import PlcMachine.Proofs.Machine.StackInvariant

/-! # Cursors only go back

A cursor that a frame returns to when a callee is left, or when a call fails, is one that it had before.
So returning to it gives back what was handed out since and never hands anything out.
-/

namespace PlcMachine

/-- The second cursor comes from the first by handing out slots one after another. -/
inductive Cursor.HandsOut (capacity : Nat) (c : Cursor) : Cursor → Prop where
  | refl : HandsOut capacity c c
  | next {c' c'' : Cursor} {width : UInt32} {a : BitAddress} (h : HandsOut capacity c c')
      (ha : c'.allocate capacity width = .ok (a, c'')) : HandsOut capacity c c''

theorem Cursor.HandsOut.behind {capacity low : Nat} {c c' : Cursor} (h : c.HandsOut capacity c')
    (hc : c.Within low capacity) (hcap : capacity < UInt32.size) :
    c'.Within low capacity ∧ c.Behind c' := by
  induction h with
  | refl => exact ⟨hc, .refl c⟩
  | next _ ha ih =>
    obtain ⟨hwithin, hbehind⟩ := ih
    obtain ⟨hwithin', hbehind', -⟩ := hwithin.allocate_gives hcap ha
    exact ⟨hwithin', hbehind.trans hbehind'⟩

namespace Stacked

variable {f g : Frame} {fs callees callers : List Frame}

theorem append_right (h : Stacked (callees ++ callers)) : Stacked callers := by
  induction callees with
  | nil => exact h
  | cons f callees ih =>
    refine ih ?_
    rw [List.cons_append] at h
    cases hrest : callees ++ callers with
    | nil => exact .nil
    | cons g rest =>
      rw [hrest] at h
      cases h with
      | call _ _ h => exact h

theorem calledBy (h : Stacked (callees ++ f :: g :: callers)) : f.CalledBy g := by
  cases h.append_right with
  | call _ hc _ => exact hc

theorem outermost_getLast (h : Stacked fs) : ∀ f ∈ fs.getLast?, f.Outermost := by
  induction h with
  | nil => simp
  | outermost _ ho => simpa using ho
  | call _ _ _ ih => simpa using ih

end Stacked

namespace Machine

variable {m m' : Machine}

theorem blank_frames_of_enter_error {site : CallSite} {e : CallError}
    (h : m.enter site = (.error e, m')) : m'.frames.map Frame.blank = m.frames.map Frame.blank := by
  obtain ⟨_, _, _, _, m₁, he, -⟩ | ⟨_, pool, he⟩ | ⟨_, _, plan, _, written, pool, -, hw, he⟩ :=
    m.enter_cases site
  · cases he.symm.trans h
  · cases he.symm.trans h
    rfl
  · cases he.symm.trans h
    have hblank : written.frames.map Frame.blank = m.frames.map Frame.blank :=
      frames_of_blank_eq (blank_of_makeWrites hw)
    exact hblank

theorem blank_frames_leave_of_calledBy {f g : Frame} {callers : List Frame}
    (hf : m.frames = f :: g :: callers) (hc : f.CalledBy g) :
    ∃ mark : Cursor, f.callerMark = some mark ∧ mark.Behind g.stack.cursor ∧
      m.leave.2.frames.map Frame.blank = (g.rewind mark :: callers).map Frame.blank := by
  obtain ⟨mark, hmark, -, hbehind, -⟩ := hc
  refine ⟨mark, hmark, hbehind, ?_⟩
  rw [blank_frames_leave hf, hmark]
  rfl

/-- In every reachable state the frames are sound and linked to their callers. So the mark that leaving a
frame returns to is not ahead of the caller's cursor, the cursor that a failing call returns to is not
ahead of any that planning may have got to, and no call that fails moves a cursor. -/
theorem rewinds_back (hm : m.Reachable) :
    (∀ f ∈ m.frames, f.state = .active ∧
      f.stack.cursor.Within f.block.tempBytes.toNat f.stack.capacity) ∧
    (∀ f ∈ m.frames.getLast?, f.Outermost) ∧
    (∀ callees f g callers, m.frames = callees ++ f :: g :: callers → f.CalledBy g) ∧
    (∀ f g callers, m.frames = f :: g :: callers →
      ∃ mark : Cursor, f.callerMark = some mark ∧ mark.Behind g.stack.cursor ∧
        m.leave.2.frames.map Frame.blank = (g.rewind mark :: callers).map Frame.blank) ∧
    (∀ c, m.start.HandsOut m.room c → m.start.Behind c) ∧
    ∀ site e m', m.enter site = (.error e, m') →
      m'.frames.map Frame.blank = m.frames.map Frame.blank := by
  have hstacked := hm.stacked
  have hlinked : ∀ callees f g callers, m.frames = callees ++ f :: g :: callers → f.CalledBy g := by
    intro callees f g callers hf
    rw [hf] at hstacked
    exact hstacked.calledBy
  refine ⟨?_, hstacked.outermost_getLast, hlinked, ?_, ?_, ?_⟩
  · intro f hf
    have hsound := hstacked.forall_sound f hf
    exact ⟨hsound.active, hsound.within⟩
  · intro f g callers hf
    exact blank_frames_leave_of_calledBy hf (hlinked [] f g callers hf)
  · intro c hc
    exact (hc.behind hm.allocates.within hm.allocates.room_lt).2
  · intro site e m' h
    exact blank_frames_of_enter_error h

namespace Rewinding

/-- A controller two calls deep, where the second call copied its actual. -/
def nested : Machine :=
  Bracketed.caller.run
    [.enter (Bracketed.site Bracketed.temporary), .enter (Bracketed.site (.slot 0))]

end Rewinding

open Rewinding in
/-- The second call has a copy in the local data of the first. -/
theorem rewinds_back_nested : ∃ f g h mark, nested.frames = [f, g, h] ∧ f.outbound ≠ [] ∧
    f.callerMark = some mark ∧ mark.Behind g.stack.cursor ∧ mark ≠ g.stack.cursor ∧
      f.CalledBy g ∧ g.CalledBy h ∧ h.Outermost := by
  have hreachable : nested.Reachable := ((Reachable.start _ _).run _).run _
  obtain ⟨-, houtermost, hlinked, hleave, -, -⟩ := rewinds_back hreachable
  have hlength : nested.frames.length = 3 := by decide +kernel
  have houtbound : nested.frames.head?.map (·.outbound.length) = some 1 := by decide +kernel
  have hmarks : nested.frames.head?.bind (·.callerMark) ≠ nested.frames[1]?.map (·.stack.cursor) := by
    decide +kernel
  obtain ⟨f, g, h, hf⟩ := List.length_eq_three.mp hlength
  rw [hf] at houtbound hmarks houtermost
  obtain ⟨mark, hmark, hbehind, -⟩ := hleave f g [h] hf
  refine ⟨f, g, h, mark, hf, ?_, hmark, hbehind, ?_, hlinked [] f g [h] hf, hlinked [f] g h [] hf, ?_⟩
  · rintro hnil
    simp [hnil] at houtbound
  · rintro rfl
    exact hmarks hmark
  · exact houtermost h rfl

end Machine

end PlcMachine
