import Mathlib

/-!
# Ordered maps over lawful comparators

A comparator that equates only equal keys turns the lookup laws into statements
about equality of keys. An ordered map with a default value is a total function on
its keys: a quantity that vanishes at the default can be summed over the stored
entries or over the whole key type, with the same result.
-/

namespace OrderedMap

universe u v

variable {K : Type u} {V : Type v} {cmp : K → K → Ordering}
variable [Std.TransCmp cmp] [Std.LawfulEqCmp cmp]

theorem getElem?_insert [DecidableEq K] (t : Std.TreeMap K V cmp) (k a : K) (v : V) :
    (t.insert k v)[a]? = if a = k then some v else t[a]? := by
  rw [Std.TreeMap.getElem?_insert]
  simp only [Std.LawfulEqCmp.compare_eq_iff_eq, eq_comm (a := k)]

theorem getElem?_erase [DecidableEq K] (t : Std.TreeMap K V cmp) (k a : K) :
    (t.erase k)[a]? = if a = k then none else t[a]? := by
  rw [Std.TreeMap.getElem?_erase]
  simp only [Std.LawfulEqCmp.compare_eq_iff_eq, eq_comm (a := k)]

theorem getElem?_insert_some [DecidableEq K] (t : Std.TreeMap K V cmp) (k a : K) (v w : V) :
    (t.insert k v)[a]? = some w ↔ (a = k ∧ v = w) ∨ (a ≠ k ∧ t[a]? = some w) := by
  rw [getElem?_insert]
  split_ifs with h <;> simp [h]

theorem getElem?_erase_some [DecidableEq K] (t : Std.TreeMap K V cmp) (k a : K) (v : V) :
    (t.erase k)[a]? = some v ↔ a ≠ k ∧ t[a]? = some v := by
  rw [getElem?_erase]
  split_ifs with h <;> simp [h]

theorem nodup_keys (t : Std.TreeMap K V cmp) : (t.toList.map Prod.fst).Nodup := by
  have h := t.distinct_keys_toList
  rw [List.Nodup, List.pairwise_map]
  exact h.imp fun hne heq => hne (Std.LawfulEqCmp.compare_eq_iff_eq.mpr heq)

/-- Summing over the entries is summing over all keys. -/
theorem sum_toList [Fintype K] (t : Std.TreeMap K V cmp) (d : V) (f : V → ℕ) (hd : f d = 0) :
    (t.toList.map fun kv => f kv.2).sum = ∑ k, f (t.getD k d) := by
  classical
  have hentry : ∀ kv ∈ t.toList, f kv.2 = f (t.getD kv.1 d) := by
    intro kv hkv
    rw [Std.TreeMap.getD_eq_getD_getElem?,
      Std.TreeMap.mem_toList_iff_getElem?_eq_some.mp (show (kv.1, kv.2) ∈ t.toList from hkv)]
    rfl
  have hoff : ∀ k ∉ (t.toList.map Prod.fst).toFinset, f (t.getD k d) = 0 := by
    intro k hk
    have hnone : t[k]? = none := by
      by_contra hne
      obtain ⟨v, hv⟩ := Option.ne_none_iff_exists'.mp hne
      exact hk (List.mem_toFinset.mpr (List.mem_map.mpr
        ⟨(k, v), Std.TreeMap.mem_toList_iff_getElem?_eq_some.mpr hv, rfl⟩))
    rw [Std.TreeMap.getD_eq_getD_getElem?, hnone]
    exact hd
  calc (t.toList.map fun kv => f kv.2).sum
      = ((t.toList.map Prod.fst).map fun k => f (t.getD k d)).sum := by
        rw [List.map_map]
        exact congrArg List.sum (List.map_congr_left hentry)
    _ = ∑ k ∈ (t.toList.map Prod.fst).toFinset, f (t.getD k d) :=
        (List.sum_toFinset _ (nodup_keys t)).symm
    _ = ∑ k, f (t.getD k d) :=
        Finset.sum_subset (Finset.subset_univ _) fun k _ hk => hoff k hk

/-- A list without repetitions that holds the bindings of a map is its list of entries
up to order. -/
theorem perm_toList (t : Std.TreeMap K V cmp) {l : List (K × V)} (hnodup : l.Nodup)
    (hmem : ∀ k v, t[k]? = some v ↔ (k, v) ∈ l) : t.toList.Perm l := by
  apply (List.perm_ext_iff_of_nodup (List.Nodup.of_map _ (nodup_keys t)) hnodup).mpr
  rintro ⟨k, v⟩
  rw [Std.TreeMap.mem_toList_iff_getElem?_eq_some]
  exact hmem k v

theorem size_of_mem_iff (t : Std.TreeMap K V cmp) {l : List (K × V)} (hnodup : l.Nodup)
    (hmem : ∀ k v, t[k]? = some v ↔ (k, v) ∈ l) : t.size = l.length := by
  rw [← Std.TreeMap.length_toList]
  exact (perm_toList t hnodup hmem).length_eq

/-- A list in key order that holds the bindings of a map is its list of entries. -/
theorem toList_of_mem_iff (t : Std.TreeMap K V cmp) {l : List (K × V)}
    (hsorted : l.Pairwise fun a b => cmp a.1 b.1 = .lt)
    (hmem : ∀ k v, t[k]? = some v ↔ (k, v) ∈ l) : t.toList = l := by
  have hnodup : l.Nodup := by
    refine hsorted.imp ?_
    rintro a b hlt rfl
    have hself : cmp a.1 a.1 = .eq := Std.ReflCmp.compare_self
    rw [hself] at hlt
    cases hlt
  apply (perm_toList t hnodup hmem).eq_of_pairwise _ t.ordered_keys_toList hsorted
  intro a b _ _ hab hba
  rw [Std.OrientedCmp.gt_of_lt hba] at hab
  cases hab

end OrderedMap
