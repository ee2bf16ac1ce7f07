import OrderedQuery.Proofs.Store.Walk

/-!
# What a scan returns

A scan returns the first entries of a table, in scan direction, that lie in its range.  One that
resumes after a key returns those of the range behind the key, unless the key stands in front of
the range: then the entries between the key and the range come first
(`Store.scan_returns`).  A scan that goes on after a key which another one has returned
never does that.
-/

namespace OrderedQuery
namespace Store

/-- The entries that a scan would return without a limit. -/
theorem visible_eq_filter (s : Store) (table : String) (range : KeyRange)
    (direction : Direction) :
    s.visible table range direction =
      (direction.orient (s.tableEntries table)).filter fun e => range.contains e.1 := by
  rw [visible, Direction.filter_orient]

/-- A scan returns the first entries of a table that lie in its range.  If it resumes after a
key, these are the first ones behind the key that do not lie past the far end of the range;
unless keys behind it lie in front of the range, they are the first ones of the range behind
the key. -/
theorem scan_returns {table : String} (hfree : Layout.ZeroFree table) (s : Store)
    (range : KeyRange) (direction : Direction) (limit : Nat) :
    let listed := direction.orient (s.tableEntries table)
    s.scan table range none direction limit =
        (listed.filter fun e => range.contains e.1).take limit ∧
      ∀ key,
        s.scan table range (some key) direction limit =
          (listed.filter fun e =>
            range.admitsLast direction e.1 && decide (direction.Before key e.1)).take limit ∧
        (range.StartsBy direction key →
          s.scan table range (some key) direction limit =
            (listed.filter fun e =>
              range.contains e.1 && decide (direction.Before key e.1)).take limit) := by
  intro listed
  constructor
  · rw [scan_eq_take hfree, visible_eq_filter]
    rfl
  · intro key
    constructor
    · rw [scan_eq_take hfree, visible_eq_filter]
      simp only [KeyRange.after_contains]
      rfl
    · intro hstarts
      rw [scan_eq_take hfree, visible_eq_filter]
      simp only [KeyRange.after_contains_of_startsBy hstarts]
      rfl

/-- A store with the keys `a`, `b` and `c` in a table `t`, and `b` in another table. -/
def threeKeys : Store :=
  [("t", 0x61), ("t", 0x62), ("t", 0x63), ("u", 0x62)].foldl
    (fun s (table, key) => s.insert (Layout.storedKey table [key]) []) empty

/-- Backwards from `c`, below the end of the range that excludes it. -/
theorem scan_returns_below_excluded :
    Layout.ZeroFree "t" ∧
      KeyRange.StartsBy ⟨.unbounded, .excluded [0x63]⟩ .backward [0x63] ∧
      threeKeys.scan "t" ⟨.unbounded, .excluded [0x63]⟩ (some [0x63]) .backward 1 =
        [([0x62], [])] := by
  have hfree : Layout.ZeroFree "t" := by decide +kernel
  have hstarts : KeyRange.StartsBy ⟨.unbounded, .excluded [0x63]⟩ .backward [0x63] := by
    intro k hk
    exact decide_eq_true hk
  obtain ⟨-, hresumed⟩ :=
    scan_returns hfree threeKeys ⟨.unbounded, .excluded [0x63]⟩ .backward 1
  exact ⟨hfree, hstarts, ((hresumed [0x63]).2 hstarts).trans (by decide)⟩

/-- Forwards from `a`, a scan of the keys from `c` on returns `b` first. -/
theorem scan_leaves_range :
    let range : KeyRange := ⟨.included [0x63], .unbounded⟩
    threeKeys.scan "t" range (some [0x61]) .forward 10 = [([0x62], []), ([0x63], [])] ∧
      ((Direction.forward.orient (threeKeys.tableEntries "t")).filter fun e =>
          range.contains e.1 && decide (Direction.forward.Before [0x61] e.1)).take 10 =
        [([0x63], [])] := by
  decide

end Store
end OrderedQuery
