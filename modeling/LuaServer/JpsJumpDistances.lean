import LuaServer.JpsLineCache
import Mathlib.Order.Bounds.Basic

/-!
# Jump distances

What `jpcache` leaves for a free cell and a straight direction is the distance to the
first forced neighbour ahead, or to the last free cell ahead when there is none.  It
writes only cells of the map: whatever `jpcache_` held elsewhere would still be there.
-/

namespace LuaServer

namespace Jps

open GridCell MachineIntegers

/-- `k` free cells of the map lie directly ahead of `p`. -/
structure FreeAhead (g : Grid) (p d : Pos) (k : Int) : Prop where
  nonneg : 0 ≤ k
  clear : ∀ i, 1 ≤ i → i ≤ k → g.Free (p.advance d i)
  ends : ¬ g.Free (p.advance d (k + 1))

/-- The distances up to `k` at which `fneig` reports a forced neighbour. -/
def forcedAhead (g : Grid) (p d : Pos) (k : Int) : Set Int :=
  {m | 1 ≤ m ∧ m ≤ k ∧ g.fneig (p.advance d m) d ≠ []}

/-- `v` is zero on an obstacle, and otherwise the distance to the first forced neighbour
or to the last free cell ahead. -/
structure JumpDistance (g : Grid) (p d : Pos) (v : Int) : Prop where
  blocked : ¬ g.Free p → v = 0
  ahead : ∃ k, FreeAhead g p d k
  free : g.Free p → ∀ k, FreeAhead g p d k →
    IsLeast (forcedAhead g p d k) v ∨ forcedAhead g p d k = ∅ ∧ v = k

/-- The loops of `jpcache`, from any content of `jpcache_`. -/
def cacheLines (g : Grid) (fuel : Nat) (cache : Cache) : Option Cache :=
  ((List.range g.len.toNat).foldlM (columnCache g fuel) cache).bind
    fun cache => (List.range g.wid.toNat).foldlM (rowCache g fuel) cache

section Distances

variable {g : Grid} {p d : Pos}

/-- A straight line leaves the map. -/
theorem exists_freeAhead (inside : g.inarea p = true) (straight : IsStraight d) :
    ∃ k, FreeAhead g p d k := by
  have leaves : ∃ j : Nat, ¬ g.Free (p.advance d (j + 1)) := by
    refine ⟨32767, fun free => ?_⟩
    have here := inMapRange_of_inarea inside
    have there := inMapRange_of_inarea free.inarea
    simp only [InMapRange, advance_x, advance_y] at here there
    rcases straight with rfl | rfl | rfl | rfl <;> simp at there <;> omega
  classical
  refine ⟨(Nat.find leaves : Nat), Int.natCast_nonneg _, fun i first last => ?_,
    Nat.find_spec leaves⟩
  have earlier := Nat.find_min leaves (m := (i - 1).toNat) (by omega)
  rw [not_not, show (((i - 1).toNat : Nat) : Int) + 1 = i by omega] at earlier
  exact earlier

theorem JumpLength.jumpDistance {v : Int} (jump : JumpLength g p d v)
    (inside : g.inarea p = true) (straight : IsStraight d) : JumpDistance g p d v := by
  refine ⟨jump.blocked, exists_freeAhead inside straight, fun free k ahead => ?_⟩
  have upTo : v ≤ k := by
    by_contra further
    exact ahead.ends (jump.clear (k + 1) (by linarith [ahead.nonneg]) (by omega))
  have before : ∀ m ∈ forcedAhead g p d k, v ≤ m := by
    rintro m ⟨positive, -, forced⟩
    by_contra earlier
    exact forced (jump.unforced m positive (by omega))
  by_cases atForced : v ∈ forcedAhead g p d k
  · exact Or.inl ⟨atForced, before⟩
  · have isLast : v = k := by
      rcases jump.stops free with blocked | ⟨positive, forced⟩
      · by_contra differs
        exact blocked (ahead.clear (v + 1) (by linarith [jump.nonneg]) (by omega))
      · exact absurd ⟨positive, upTo, forced⟩ atForced
    refine Or.inr ⟨Set.eq_empty_iff_forall_notMem.mpr fun m member => ?_, isLast⟩
    have same : m = v := le_antisymm (isLast ▸ member.2.1) (before m member)
    exact atForced (same ▸ member)

end Distances

section Outside

variable {g : Grid} {cache later : Cache} {p : Pos}

theorem pcache_ext (same : ∀ d, getcache later p d = getcache cache p d) :
    later p = cache p := by
  have up := same ⟨0, 1⟩
  have down := same ⟨0, -1⟩
  have left := same ⟨-1, 0⟩
  have right := same ⟨1, 0⟩
  simp only [getcache] at up down left right
  cases isLater : later p with
  | mk => cases isCache : cache p with
    | mk => simp_all

/-- The two caches hold the same outside of the map. -/
def SameOutside (g : Grid) (cache later : Cache) : Prop :=
  ∀ p, g.inarea p = false → later p = cache p

theorem SameOutside.trans {last : Cache} (first : SameOutside g cache later)
    (second : SameOutside g later last) : SameOutside g cache last :=
  fun p outside => (second p outside).trans (first p outside)

theorem linecache_outside {entry d : Pos} {count fuel : Nat} (line : Line g entry d count)
    (enough : count + 2 < fuel) (cache : Cache) :
    ∃ later, linecache g d fuel entry cache = some later ∧ SameOutside g cache later := by
  obtain ⟨later, returned, -, changes⟩ :=
    line.linecache_spec (Nat.zero_le _) (by omega) cache
  rw [show cell entry d 0 = entry by simp [cell]] at returned
  refine ⟨later, returned, fun p outside => pcache_ext fun other => ?_⟩
  apply changes p other
  rintro - ⟨j, -, onLine, rfl⟩
  rw [line.inside j onLine] at outside
  cases outside

theorem columnCache_outside {fuel i : Nat} (inside : i < g.len)
    (enough : g.wid.toNat + 2 < fuel) (cache : Cache) :
    ∃ later, columnCache g fuel cache i = some later ∧ SameOutside g cache later := by
  obtain ⟨middle, returnedUp, up⟩ := linecache_outside (line_up inside) enough cache
  obtain ⟨later, returnedDown, down⟩ := linecache_outside (line_down inside) enough middle
  exact ⟨later, by simp [columnCache, returnedUp, returnedDown], up.trans down⟩

theorem rowCache_outside {fuel j : Nat} (inside : j < g.wid)
    (enough : g.len.toNat + 2 < fuel) (cache : Cache) :
    ∃ later, rowCache g fuel cache j = some later ∧ SameOutside g cache later := by
  obtain ⟨middle, returnedRight, right⟩ := linecache_outside (line_right inside) enough cache
  obtain ⟨later, returnedLeft, left⟩ := linecache_outside (line_left inside) enough middle
  exact ⟨later, by simp [rowCache, returnedRight, returnedLeft], right.trans left⟩

/-- The loops leave every cell outside of the map alone. -/
theorem cacheLines_outside {fuel : Nat} (enoughLen : g.len.toNat + 2 < fuel)
    (enoughWid : g.wid.toNat + 2 < fuel) (cache : Cache) :
    ∃ later, cacheLines g fuel cache = some later ∧ SameOutside g cache later := by
  have columnsKeep : ∀ (i : Nat) (middle : Cache), i < g.len.toNat →
      SameOutside g cache middle →
      ∃ next, columnCache g fuel middle i = some next ∧ SameOutside g cache next := by
    intro i middle iLt kept
    have inside : (i : Int) < g.len := by omega
    obtain ⟨next, returned, same⟩ := columnCache_outside inside enoughWid middle
    exact ⟨next, returned, kept.trans same⟩
  have rowsKeep : ∀ (j : Nat) (middle : Cache), j < g.wid.toNat →
      SameOutside g cache middle →
      ∃ next, rowCache g fuel middle j = some next ∧ SameOutside g cache next := by
    intro j middle jLt kept
    have inside : (j : Int) < g.wid := by omega
    obtain ⟨next, returned, same⟩ := rowCache_outside inside enoughLen middle
    exact ⟨next, returned, kept.trans same⟩
  obtain ⟨columns, returnedColumns, keptColumns⟩ :=
    foldlM_range_spec (fun _ middle => SameOutside g cache middle) columnsKeep (fun _ _ => rfl)
  obtain ⟨later, returnedRows, keptRows⟩ :=
    foldlM_range_spec (fun _ middle => SameOutside g cache middle) rowsKeep keptColumns
  refine ⟨later, ?_, keptRows⟩
  rw [cacheLines, returnedColumns]
  exact returnedRows

end Outside

/-- `jpcache` ends, writes only cells of the map, and leaves the jump distance of every
cell in every straight direction. -/
theorem jpcache_exact (g : Grid) :
    ∃ fuel, ∀ more, fuel ≤ more →
      (∀ start, ∃ later, cacheLines g more start = some later ∧ SameOutside g start later) ∧
        ∃ cache, jpcache g more = some cache ∧
          ∀ p d, g.inarea p = true → IsStraight d →
            JumpDistance g p d (getcache cache p d) := by
  refine ⟨g.len.toNat + g.wid.toNat + 3, fun more enough => ⟨fun start => ?_, ?_⟩⟩
  · exact cacheLines_outside (by omega) (by omega) start
  · obtain ⟨cache, returned, jumps⟩ := @jpcache_spec g more (by omega) (by omega)
    exact ⟨cache, returned, fun p d inside straight =>
      (jumps p d inside straight).jumpDistance inside straight⟩

end Jps

end LuaServer
