import Mathlib.Tactic.Ring
import BlobCache.Node.Programs

/-!
The arithmetic of `fetch_range`: which chunks a range meets, what is taken of
each, and that the pieces put together are the range.
-/

namespace BlobCache

/-- Two adjacent slices make one. -/
theorem slice_append {b : Bytes} {start mid stop : Nat} (hmid : start ≤ mid)
    (hstop : mid ≤ stop) : slice b start mid ++ slice b mid stop = slice b start stop := by
  have hlen : stop - start = (mid - start) + (stop - mid) := by omega
  have hdrop : b.drop mid = (b.drop start).drop (mid - start) := by
    rw [List.drop_drop]
    congr 1
    omega
  rw [slice, slice, slice, hlen, List.take_add, hdrop]

/-- A slice of a slice. -/
theorem slice_take_drop (b : Bytes) (o n start stop : Nat) (hstop : stop ≤ n) :
    slice ((b.drop o).take n) start stop = slice b (o + start) (o + stop) := by
  have hlen : o + stop - (o + start) = stop - start := by omega
  rw [slice, slice, List.drop_take, List.drop_drop, List.take_take, hlen]
  congr 1
  omega

namespace Node

variable {cfg : NodeConfig}

theorem chunkOffsets_of_lt {cs last fuel o : Nat} (h : last < o) :
    chunkOffsets cs last fuel o = [] := by
  cases fuel with
  | zero => rfl
  | succ fuel => simp [chunkOffsets, Nat.not_le.mpr h]

theorem chunkOffsets_mem {cs last fuel o x : Nat} (hx : x ∈ chunkOffsets cs last fuel o) :
    o ≤ x ∧ x ≤ last ∧ cs ∣ x - o := by
  induction fuel generalizing o with
  | zero => simp [chunkOffsets] at hx
  | succ fuel ih =>
      simp only [chunkOffsets] at hx
      split at hx
      · rename_i hle
        rcases List.mem_cons.mp hx with rfl | hx
        · exact ⟨le_rfl, hle, by simp⟩
        · split at hx
          · rename_i n hn
            obtain rfl := checkedAdd_eq hn
            obtain ⟨h1, h2, h3⟩ := ih hx
            refine ⟨by omega, h2, ?_⟩
            have hsub : x - o = (x - (o + cs)) + cs := by omega
            rw [hsub]
            exact Nat.dvd_add h3 (dvd_refl cs)
          · simp at hx
      · simp at hx

theorem chunkOffsets_pairwise {cs last : Nat} (hcs : 0 < cs) (fuel o : Nat) :
    (chunkOffsets cs last fuel o).Pairwise (· < ·) := by
  induction fuel generalizing o with
  | zero => exact List.Pairwise.nil
  | succ fuel ih =>
      simp only [chunkOffsets]
      split
      · split
        · rename_i n hn
          obtain rfl := checkedAdd_eq hn
          refine List.Pairwise.cons ?_ (ih (o + cs))
          intro x hx
          have := (chunkOffsets_mem hx).1
          omega
        · exact List.pairwise_singleton _ _
      · exact List.Pairwise.nil

theorem rangeOffsets_mem {offset stop x : Nat} (hlt : offset < stop)
    (hx : x ∈ rangeOffsets cfg offset stop) : x < stop ∧ cfg.chunkSize ∣ x := by
  obtain ⟨h1, h2, h3⟩ := chunkOffsets_mem hx
  have hlast := Nat.div_mul_le_self (stop - 1) cfg.chunkSize
  refine ⟨by omega, ?_⟩
  have hsum : x = (x - offset / cfg.chunkSize * cfg.chunkSize) +
      offset / cfg.chunkSize * cfg.chunkSize := by omega
  rw [hsum]
  exact Nat.dvd_add h3 (Nat.dvd_mul_left _ _)

theorem rangeOffsets_pairwise {offset stop : Nat} (hcs : 0 < cfg.chunkSize) :
    (rangeOffsets cfg offset stop).Pairwise (· < ·) :=
  chunkOffsets_pairwise hcs _ _

/-- The loop of `fetch_range` from `o` on covers the rest of the range. The
fuel is enough when it counts the chunks that are left. -/
theorem chunkOffsets_cover {cs last o stop fuel : Nat} (offset : Nat) (c : Bytes) (hcs : 0 < cs)
    (ho : cs ∣ o) (hlast : cs ∣ last) (hle : o ≤ last) (hstop : last < stop)
    (hend : stop ≤ last + cs) (hmax : stop ≤ u64Max) (hoff : offset < o + cs)
    (hfuel : (last - o) / cs < fuel) :
    (chunkOffsets cs last fuel o).flatMap
        (fun x => slice c (max offset x) (min stop (x + cs))) =
      slice c (max offset o) stop := by
  induction fuel generalizing o with
  | zero => exact absurd hfuel (Nat.not_lt_zero _)
  | succ fuel ih =>
      simp only [chunkOffsets, if_pos hle, List.flatMap_cons]
      by_cases heq : o = last
      · rw [Nat.min_eq_left (by omega)]
        cases hadd : checkedAdd o cs with
        | none => simp
        | some n =>
            have hn : o + cs = n := checkedAdd_eq hadd
            simp [chunkOffsets_of_lt (by omega : last < n)]
      · obtain ⟨a, rfl⟩ := ho
        obtain ⟨b, rfl⟩ := hlast
        have hab : a + 1 ≤ b := by
          by_contra hcon
          have hba : b ≤ a := by omega
          have := Nat.mul_le_mul_left cs hba
          omega
        have hnext : cs * a + cs ≤ cs * b := by
          calc cs * a + cs = cs * (a + 1) := by ring
            _ ≤ cs * b := Nat.mul_le_mul_left cs hab
        have hadd : checkedAdd (cs * a) cs = some (cs * a + cs) := by
          unfold checkedAdd
          rw [if_pos (by omega)]
        have hcount : (cs * b - (cs * a + cs)) / cs < fuel := by
          have h1 : cs * b - cs * a = (cs * b - (cs * a + cs)) + cs := by omega
          rw [h1, Nat.add_div_right _ hcs] at hfuel
          omega
        rw [hadd]
        have hrest := ih (Dvd.intro (a + 1) (by ring)) hnext (by omega) hcount
        simp only
        rw [hrest, Nat.min_eq_right (by omega), Nat.max_eq_right (by omega : offset ≤ cs * a + cs)]
        exact slice_append (by omega) (by omega)

/-- What is taken of the chunk at `x`, as a part of the blob. -/
theorem take_bounds {offset stop fileSize x : Nat} (hx : x < stop)
    (hoff : offset < x + cfg.chunkSize) (hlt : offset < stop) (hstop : stop ≤ fileSize) :
    x + takeStart offset x = max offset x ∧
      x + (takeStart offset x + takeLen cfg offset stop fileSize x) =
        min stop (x + cfg.chunkSize) ∧
      takeStart offset x + takeLen cfg offset stop fileSize x ≤
        min cfg.chunkSize (fileSize - x) := by
  simp only [takeStart, takeLen]
  omega

theorem rangeOffsets_near {offset stop x : Nat} (hcs : 0 < cfg.chunkSize)
    (hx : x ∈ rangeOffsets cfg offset stop) : offset < x + cfg.chunkSize := by
  have h1 := (chunkOffsets_mem hx).1
  have h2 := Nat.lt_div_mul_add hcs (a := offset)
  omega

/-- The pieces that `fetch_range` takes, put together, are the range. -/
theorem rangeOffsets_cover {offset stop fileSize : Nat} (c : Bytes) (hcs : 0 < cfg.chunkSize)
    (hlt : offset < stop) (hstop : stop ≤ fileSize) (hmax : fileSize ≤ u64Max) :
    (rangeOffsets cfg offset stop).flatMap (fun x =>
        slice ((c.drop x).take (min cfg.chunkSize (fileSize - x))) (takeStart offset x)
          (takeStart offset x + takeLen cfg offset stop fileSize x)) =
      slice c offset stop := by
  have hpieces : ∀ x ∈ rangeOffsets cfg offset stop,
      slice ((c.drop x).take (min cfg.chunkSize (fileSize - x))) (takeStart offset x)
          (takeStart offset x + takeLen cfg offset stop fileSize x) =
        slice c (max offset x) (min stop (x + cfg.chunkSize)) := by
    intro x hx
    obtain ⟨hb1, hb2, hb3⟩ := take_bounds (rangeOffsets_mem hlt hx).1
      (rangeOffsets_near hcs hx) hlt hstop
    rw [slice_take_drop c x _ _ _ hb3, hb1, hb2]
  rw [List.flatMap_congr hpieces]
  have hfirst := Nat.div_mul_le_self offset cfg.chunkSize
  have hlast := Nat.div_mul_le_self (stop - 1) cfg.chunkSize
  have hnear := Nat.lt_div_mul_add hcs (a := offset)
  have hend := Nat.lt_div_mul_add hcs (a := stop - 1)
  have hmono : offset / cfg.chunkSize * cfg.chunkSize ≤
      (stop - 1) / cfg.chunkSize * cfg.chunkSize :=
    Nat.mul_le_mul_right _ (Nat.div_le_div_right (by omega))
  have hcover := chunkOffsets_cover offset c hcs (Nat.dvd_mul_left _ _)
    (Nat.dvd_mul_left _ _) hmono (by omega) (by omega) (by omega : stop ≤ u64Max) (by omega)
    (Nat.lt_succ_self _)
  rw [rangeOffsets]
  refine hcover.trans ?_
  rw [Nat.max_eq_left hfirst]

end Node

end BlobCache
