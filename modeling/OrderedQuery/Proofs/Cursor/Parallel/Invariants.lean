import OrderedQuery.Cursor.Parallel.Cursor

/-!
# Invariants of runs

Whatever a run does, it does by steps of its workers and by choosing who is next.  What both of
these preserve is preserved while workers take the steps that the schedule chooses, while a reader
waits and while workers come to their ends.
-/

namespace OrderedQuery
namespace Run

variable {σ : Type}

/-- What holds of a run and its world is preserved by the steps of workers and by choosing. -/
structure Invariant (m : Machine σ) (I : Run σ → World → Prop) : Prop where
  step : ∀ {r w}, I r w → ∀ i, I (r.stepWorker m i w).1 (r.stepWorker m i w).2
  draw : ∀ {r} {w : World}, I r w → I r w.draw.2

/-- The same, where workers that have to wait take no steps. -/
structure Stable (m : Machine σ) (I : Run σ → World → Prop) : Prop where
  step : ∀ {r w i}, I r w → i ∈ r.ready w → I (r.stepWorker m i w).1 (r.stepWorker m i w).2
  draw : ∀ {r} {w : World}, I r w → I r w.draw.2

theorem Invariant.stable {m : Machine σ} {I : Run σ → World → Prop} (hI : Invariant m I) :
    Stable m I :=
  ⟨fun h _ => hI.step h _, hI.draw⟩

/-- What a reader gets by waiting, if `I` holds all the time: the first message of a run of which
`I` holds, or no message. -/
inductive Receives (I : Run σ → World → Prop) : Receipt × Run σ × World → Prop where
  | message {r : Run σ} {w : World} {message : Message} {queue : List Message} (h : I r w)
      (hqueue : r.channel.queue = message :: queue) :
      Receives I (.message message, { r with channel := { r.channel with queue } }, w)
  | disconnected {r : Run σ} {w : World} (h : I r w) : Receives I (.disconnected, r, w)
  | timeout {r : Run σ} {w : World} (h : I r w) : Receives I (.timeout, r, w)
  | stalled {r : Run σ} {w : World} (h : I r w) : Receives I (.stalled, r, w)

/-- It does not depend on the schedule who need not wait. -/
theorem ready_draw (r : Run σ) (w : World) : r.ready w.draw.2 = r.ready w := by
  unfold World.draw
  split <;> rfl

/-- One of several is chosen. -/
theorem getD_getElem?_mem {α : Type} (a : α) (l : List α) (choice : Nat) :
    ((a :: l)[choice]?).getD a ∈ a :: l := by
  cases hget : (a :: l)[choice]? with
  | none => exact List.mem_cons_self
  | some b => exact List.mem_of_getElem? hget

namespace Stable

variable {m : Machine σ} {I : Run σ → World → Prop} {r : Run σ} {w : World}

theorem mingle (hI : Stable m I) (fuel : Nat) (h : I r w) :
    I (r.mingle m fuel w).1 (r.mingle m fuel w).2 := by
  induction fuel generalizing r w with
  | zero => exact h
  | succ fuel ih =>
      have hdrawn := hI.draw h
      rw [Run.mingle]
      generalize w.draw = x at hdrawn
      obtain ⟨_ | choice, w'⟩ := x
      · exact hdrawn
      · dsimp only
        split
        · exact hdrawn
        · rename_i i hi
          exact ih (hI.step hdrawn (List.mem_of_getElem? hi))

theorem settle (hI : Stable m I) (fuel : Nat) (h : I r w) :
    I (r.settle m fuel w).1 (r.settle m fuel w).2 := by
  induction fuel generalizing r w with
  | zero => exact h
  | succ fuel ih =>
      rw [Run.settle]
      split
      · exact h
      · rename_i i others hready
        have hchosen : ((i :: others)[w.draw.1 % (others.length + 1)]?).getD i ∈
            r.ready w.draw.2 := by
          rw [ready_draw, hready]
          exact getD_getElem?_mem i others _
        exact ih (hI.step (hI.draw h) hchosen)

theorem awaitWith (hI : Stable m I) (fuel : Nat) (h : I r w) :
    Receives I (r.awaitWith m fuel w) := by
  induction fuel generalizing r w with
  | zero => exact .stalled h
  | succ fuel ih =>
      have hdrawn := hI.draw h
      rw [Run.awaitWith]
      generalize w.draw = x at hdrawn
      obtain ⟨_ | choice, w'⟩ := x
      · dsimp only
        split
        · rename_i hqueue
          exact .message hdrawn hqueue
        · split
          · exact .disconnected hdrawn
          · split
            · exact .stalled hdrawn
            · rename_i i others hready
              refine ih (hI.step hdrawn ?_)
              rw [hready]
              exact List.mem_cons_self
      · dsimp only
        split
        · exact .timeout hdrawn
        · rename_i i hi
          exact ih (hI.step hdrawn (List.mem_of_getElem? hi))

end Stable

namespace Invariant

variable {m : Machine σ} {I : Run σ → World → Prop} {r : Run σ} {w : World}

theorem mingle (hI : Invariant m I) (fuel : Nat) (h : I r w) :
    I (r.mingle m fuel w).1 (r.mingle m fuel w).2 :=
  hI.stable.mingle fuel h

theorem interleave (hI : Invariant m I) (h : I r w) :
    I (r.interleave m w).1 (r.interleave m w).2 :=
  hI.mingle _ h

theorem settle (hI : Invariant m I) (fuel : Nat) (h : I r w) :
    I (r.settle m fuel w).1 (r.settle m fuel w).2 :=
  hI.stable.settle fuel h

theorem await (hI : Invariant m I) (h : I r w) : Receives I (r.await m w) :=
  hI.stable.awaitWith _ h

end Invariant

/-- No step exchanges the token of a run. -/
theorem token_invariant (m : Machine σ) (t : Token) : Invariant m fun r _ => r.token = t where
  step {r w} h i := by
    rw [stepWorker]
    split <;> exact h
  draw h := h

end Run
end OrderedQuery
