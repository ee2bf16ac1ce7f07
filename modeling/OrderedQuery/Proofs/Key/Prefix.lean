import OrderedQuery.Key.Successor
import OrderedQuery.Proofs.Bytes.Order
import Mathlib.Order.Bounds.Defs

/-!
# Keys with a common beginning

`Key.successor?` is the least byte string above all strings that begin with a given one.
The strings above it are those that lie above the beginning without starting with it, so a
beginning and its successor enclose exactly the strings that begin with it
(`Key.successor_fences_prefix`).
-/

namespace OrderedQuery
namespace Key

/-- A string of `FF` bytes begins every string above it. -/
theorem prefix_of_successor?_eq_none {b k : Bytes} (h : successor? b = none) (hk : b ≤ k) :
    b <+: k := by
  induction b generalizing k with
  | nil => exact List.nil_prefix
  | cons c b ih =>
      rw [successor?] at h
      split at h
      · simp at h
      · rename_i hrest
        have hc : c = 0xFF := by
          by_contra hne
          simp [hne] at h
        cases k with
        | nil => simp at hk
        | cons d k =>
            rw [List.cons_le_cons_iff] at hk
            rcases hk with hlt | ⟨rfl, hle⟩
            · have htop := UInt8.lt_iff_toNat_lt.mp hlt
              have hd : d.toNat < 256 := d.toNat_lt
              rw [hc] at htop
              have hff : (0xFF : UInt8).toNat = 255 := rfl
              omega
            · exact List.cons_prefix_cons.mpr ⟨rfl, ih hrest hle⟩

theorem add_one_le_iff {b c : UInt8} (hb : b ≠ 0xFF) : b + 1 ≤ c ↔ b < c := by
  have hlt : b.toNat < 255 := by
    have hbound : b.toNat < 256 := b.toNat_lt
    have hne : b.toNat ≠ 255 := fun h => hb (UInt8.toNat_inj.mp h)
    omega
  have hsucc : (b + 1).toNat = b.toNat + 1 := by
    have hone : (1 : UInt8).toNat = 1 := rfl
    rw [UInt8.toNat_add, hone]
    exact Nat.mod_eq_of_lt (by omega)
  rw [UInt8.le_iff_toNat_le, UInt8.lt_iff_toNat_lt, hsucc]
  omega

/-- What lies from the successor on lies above the beginning and does not start with it. -/
theorem successor?_le_iff {b above : Bytes} (h : successor? b = some above) (k : Bytes) :
    above ≤ k ↔ b < k ∧ ¬b <+: k := by
  induction b generalizing above k with
  | nil => simp [successor?] at h
  | cons c b ih =>
      cases k with
      | nil =>
          rw [successor?] at h
          split at h
          · obtain rfl : c :: _ = above := by simpa using h
            simp
          · split at h
            · simp at h
            · obtain rfl : [c + 1] = above := by simpa using h
              simp
      | cons d k =>
          rw [List.cons_lt_cons_iff, List.cons_prefix_cons]
          rw [successor?] at h
          split at h
          · rename_i above' hrest
            obtain rfl : c :: above' = above := by simpa using h
            rw [List.cons_le_cons_iff, ih hrest]
            constructor
            · rintro (hlt | ⟨rfl, hk, hnot⟩)
              · exact ⟨.inl hlt, fun hp => UInt8.ne_of_lt hlt hp.1⟩
              · exact ⟨.inr ⟨rfl, hk⟩, fun hp => hnot hp.2⟩
            · rintro ⟨hlt | ⟨rfl, hk⟩, hnot⟩
              · exact .inl hlt
              · exact .inr ⟨rfl, hk, fun hp => hnot ⟨rfl, hp⟩⟩
          · rename_i hrest
            split at h
            · simp at h
            · rename_i hc
              obtain rfl : [c + 1] = above := by simpa using h
              rw [List.cons_le_cons_iff]
              constructor
              · intro hle
                have hcd : c < d := by
                  rw [← add_one_le_iff hc]
                  rcases hle with hlt | ⟨heq, -⟩
                  · exact UInt8.le_of_lt hlt
                  · exact UInt8.le_of_eq heq
                exact ⟨.inl hcd, fun hp => UInt8.ne_of_lt hcd hp.1⟩
              · rintro ⟨hlt | ⟨rfl, hk⟩, hnot⟩
                · rcases UInt8.lt_or_eq_of_le ((add_one_le_iff hc).mpr hlt) with hlt' | heq
                  · exact .inl hlt'
                  · exact .inr ⟨heq, by simp⟩
                · exact absurd ⟨rfl, prefix_of_successor?_eq_none hrest (List.le_of_lt hk)⟩
                    hnot

/-- What lies above a beginning and does not start with it lies from the successor on, so there
is nothing of that kind without a successor. -/
theorem exists_successor?_le_iff {b k : Bytes} :
    (∃ above ∈ successor? b, above ≤ k) ↔ b < k ∧ ¬b <+: k := by
  cases hb : successor? b with
  | none =>
      have hp : b < k → b <+: k := fun hlt => prefix_of_successor?_eq_none hb (List.le_of_lt hlt)
      simpa using hp
  | some above => simpa using successor?_le_iff hb k

theorem le_of_isPrefix {p k : Bytes} (h : p <+: k) : p ≤ k := by
  obtain ⟨rest, rfl⟩ := h
  exact List.le_append_left

/-- Only a string of `FF` bytes has no successor. -/
theorem successor?_eq_none_iff {p : Bytes} : successor? p = none ↔ ∀ b ∈ p, b = 0xFF := by
  induction p with
  | nil => simp [successor?]
  | cons c p ih =>
      rw [successor?, List.forall_mem_cons, ← ih]
      cases successor? p with
      | some above => simp
      | none => by_cases hc : c = 0xFF <;> simp [hc]

/-- Nothing lies above all strings that begin with a string of `FF` bytes. -/
theorem not_above_of_successor?_eq_none {p t : Bytes} (h : successor? p = none) :
    ¬∀ k, p <+: k → k < t := by
  intro habove
  have hlt : p < t := habove p (List.prefix_refl p)
  exact List.lt_irrefl t (habove t (prefix_of_successor?_eq_none h (List.le_of_lt hlt)))

theorem isLeast_successor? {p above : Bytes} (h : successor? p = some above) :
    IsLeast {t | ∀ k, p <+: k → k < t} above := by
  constructor
  · intro k hk
    exact List.not_le.mp fun hle => ((successor?_le_iff h k).mp hle).2 hk
  · intro t ht
    have hnot : ¬p <+: t := fun hp => List.lt_irrefl t (ht t hp)
    exact (successor?_le_iff h t).mpr ⟨ht p (List.prefix_refl p), hnot⟩

theorem successor?_eq_some_iff {p above : Bytes} :
    successor? p = some above ↔ IsLeast {t | ∀ k, p <+: k → k < t} above := by
  refine ⟨isLeast_successor?, fun hleast => ?_⟩
  cases hp : successor? p with
  | none => exact absurd hleast.1 (not_above_of_successor?_eq_none hp)
  | some found =>
      have hfound := isLeast_successor? hp
      exact congrArg some (List.le_antisymm (hfound.2 hleast.1) (hleast.2 hfound.1))

theorem isPrefix_iff {p k : Bytes} :
    p <+: k ↔ p ≤ k ∧ ∀ above ∈ successor? p, k < above := by
  have hfence : (∀ above ∈ successor? p, k < above) ↔ ¬(p < k ∧ ¬p <+: k) := by
    rw [← exists_successor?_le_iff]
    simp
  rw [hfence]
  constructor
  · intro hk
    exact ⟨le_of_isPrefix hk, fun hbeyond => hbeyond.2 hk⟩
  · rintro ⟨hle, hbelow⟩
    by_contra hnot
    have hne : p ≠ k := fun heq => hnot (heq ▸ List.prefix_refl p)
    exact hbelow ⟨Std.lt_of_le_of_ne hle hne, hnot⟩

/-- The strings that begin with `p` are those from `p` on that lie below its successor, or all
of them if it has none.  That is so exactly if every byte of `p` is `FF`, and otherwise the
successor is the least string above all that begin with `p`. -/
theorem successor_fences_prefix (p : Bytes) :
    (∀ k, p <+: k ↔ p ≤ k ∧ ∀ above ∈ successor? p, k < above) ∧
      (successor? p = none ↔ ∀ b ∈ p, b = 0xFF) ∧
      ∀ above, successor? p = some above ↔ IsLeast {t | ∀ k, p <+: k → k < t} above :=
  ⟨fun _ => isPrefix_iff, successor?_eq_none_iff, fun _ => successor?_eq_some_iff⟩

/-- The carry over two `FF` bytes shortens the successor. -/
theorem successor_fences_prefix_carried :
    let p : Bytes := [0x02, 0xFF, 0xFF]
    (p ≤ p ++ [0xFF] ∧ ∀ above ∈ successor? p, p ++ [0xFF] < above) ∧
      successor? p ≠ none ∧ IsLeast {t | ∀ k, p <+: k → k < t} [0x03] := by
  intro p
  obtain ⟨hfence, hnone, hleast⟩ := successor_fences_prefix p
  have hsome : successor? p ≠ none := fun h => absurd (hnone.mp h 0x02 (by simp [p])) (by decide)
  exact ⟨(hfence _).mp (List.prefix_append p [0xFF]), hsome, (hleast [0x03]).mp rfl⟩

end Key
end OrderedQuery
