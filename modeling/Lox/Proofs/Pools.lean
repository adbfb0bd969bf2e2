import Lox.Compilation.Requirements

/-!
# Growing pools

A pool only grows, and what it has stays where it is. How many constants it has after some have been
added to an empty one is `poolSize`.

## Main results

* `Pool.prefix_addAll`: a pool grows at its end.
* `Pool.indexOf_of_prefix`: a text keeps its index.
* `Pool.length_addAll_nil`: the number of places that constants take.
-/

namespace Lox

namespace Pool

variable {pool pool' : Pool} {text : String}

/-! ### Growing at the end -/

theorem add_text_of_mem (h : .text text ∈ pool) : pool.add (.text text) = pool := if_pos h

theorem add_text_of_not_mem (h : .text text ∉ pool) :
    pool.add (.text text) = pool ++ [.text text] := if_neg h

theorem add_of_text?_eq_none {x : Datum} (h : x.text? = none) : pool.add x = pool ++ [x] := by
  cases x with
  | text => simp [Datum.text?] at h
  | nil | bool | number => rfl

theorem prefix_add (pool : Pool) (x : Datum) : pool <+: pool.add x := by
  cases x with
  | text t =>
    by_cases hmem : .text t ∈ pool
    · rw [add_text_of_mem hmem]
    · rw [add_text_of_not_mem hmem]
      exact List.prefix_append _ _
  | nil | bool | number => exact List.prefix_append _ _

@[simp] theorem addAll_nil (pool : Pool) : pool.addAll [] = pool := rfl

theorem addAll_cons (pool : Pool) (x : Datum) (xs : List Datum) :
    pool.addAll (x :: xs) = (pool.add x).addAll xs := rfl

@[simp] theorem addAll_singleton (pool : Pool) (x : Datum) : pool.addAll [x] = pool.add x := rfl

theorem addAll_append (pool : Pool) (xs ys : List Datum) :
    pool.addAll (xs ++ ys) = (pool.addAll xs).addAll ys := List.foldl_append ..

theorem prefix_addAll (pool : Pool) (xs : List Datum) : pool <+: pool.addAll xs := by
  induction xs generalizing pool with
  | nil => exact List.prefix_refl _
  | cons x xs ih => exact (prefix_add pool x).trans (ih (pool.add x))

theorem length_le_addAll (pool : Pool) (xs : List Datum) :
    pool.length ≤ (pool.addAll xs).length := (prefix_addAll pool xs).length_le

/-- There is room for some constants and then for others exactly when there is room for all. -/
theorem length_addAll_append_le_iff {n : Nat} {xs ys : List Datum} :
    (pool.addAll (xs ++ ys)).length ≤ n ↔
      (pool.addAll xs).length ≤ n ∧ ((pool.addAll xs).addAll ys).length ≤ n := by
  rw [addAll_append]
  exact (and_iff_right_of_imp (length_le_addAll _ ys).trans).symm

theorem length_add_le (pool : Pool) (x : Datum) : (pool.add x).length ≤ pool.length + 1 := by
  cases x with
  | text t =>
    by_cases hmem : .text t ∈ pool
    · rw [add_text_of_mem hmem]
      exact Nat.le_succ _
    · rw [add_text_of_not_mem hmem, List.length_append]
      exact Nat.le_refl _
  | nil | bool | number => exact Nat.le_of_eq List.length_append

/-! ### Texts -/

theorem mem_add_text (pool : Pool) (text : String) : .text text ∈ pool.add (.text text) := by
  by_cases hmem : .text text ∈ pool
  · rwa [add_text_of_mem hmem]
  · rw [add_text_of_not_mem hmem]
    exact List.mem_append_right _ (List.mem_singleton_self _)

theorem getElem?_indexOf (h : .text text ∈ pool) : pool[pool.indexOf text]? = some (.text text) := by
  have hlt : pool.idxOf (.text text) < pool.length := List.idxOf_lt_length_of_mem h
  rw [indexOf, List.getElem?_eq_getElem hlt, List.getElem_idxOf hlt]

theorem indexOf_lt (h : .text text ∈ pool) : pool.indexOf text < pool.length :=
  List.idxOf_lt_length_of_mem h

/-- A text keeps its index when the pool grows. -/
theorem indexOf_of_prefix (hpre : pool <+: pool') (h : .text text ∈ pool) :
    pool'.indexOf text = pool.indexOf text := by
  obtain ⟨more, rfl⟩ := hpre
  exact List.idxOf_append_of_mem h

/-- A text has its index before it is added. -/
theorem indexOf_add_text (pool : Pool) (text : String) :
    (pool.add (.text text)).indexOf text = pool.indexOf text := by
  by_cases hmem : .text text ∈ pool
  · rw [add_text_of_mem hmem]
  · rw [add_text_of_not_mem hmem, indexOf, indexOf, List.idxOf_append_of_notMem hmem,
      List.idxOf_eq_length hmem]
    simp

theorem indexOf_of_not_mem (h : .text text ∉ pool) : pool.indexOf text = pool.length :=
  List.idxOf_eq_length h

/-! ### The pool in the end -/

section Final

variable {constants : Pool}

theorem getElem?_of_prefix (h : pool <+: constants) {k : Nat} {x : Datum}
    (hget : pool[k]? = some x) : constants[k]? = some x := by
  obtain ⟨more, rfl⟩ := h
  rw [List.getElem?_append_left (List.getElem?_eq_some_iff.mp hget).1, hget]

/-- A text that a piece of source needs is in the pool in the end, at its index. -/
theorem getElem?_indexOf_of_prefix {text : String} (h : pool.add (.text text) <+: constants) :
    constants[pool.indexOf text]? = some (.text text) := by
  refine getElem?_of_prefix h ?_
  rw [← indexOf_add_text]
  exact getElem?_indexOf (mem_add_text pool text)

theorem addAll_prefix_left {xs ys : List Datum} (h : pool.addAll (xs ++ ys) <+: constants) :
    pool.addAll xs <+: constants := by
  rw [addAll_append] at h
  exact (prefix_addAll _ ys).trans h

theorem addAll_prefix_right {xs ys : List Datum} (h : pool.addAll (xs ++ ys) <+: constants) :
    (pool.addAll xs).addAll ys <+: constants := by rwa [addAll_append] at h

end Final

/-! ### Sizes -/

theorem mem_add_iff {x : Datum} : .text text ∈ pool.add x ↔ .text text ∈ pool ∨ x = .text text := by
  cases x with
  | text t =>
    by_cases hmem : .text t ∈ pool
    · rw [add_text_of_mem hmem]
      refine ⟨.inl, ?_⟩
      rintro (h | h)
      · exact h
      · exact h ▸ hmem
    · rw [add_text_of_not_mem hmem, List.mem_append, List.mem_singleton]
      exact or_congr_right eq_comm
  | nil | bool | number => simp [add]

theorem mem_addAll_iff (xs : List Datum) :
    .text text ∈ pool.addAll xs ↔ .text text ∈ pool ∨ .text text ∈ xs := by
  induction xs generalizing pool with
  | nil => simp
  | cons x xs ih =>
    rw [addAll_cons, ih, mem_add_iff, List.mem_cons, or_assoc]
    exact or_congr_right (or_congr_left eq_comm)

theorem mem_filterMap_text? (xs : List Datum) :
    text ∈ (xs.filterMap Datum.text?).toFinset ↔ .text text ∈ xs := by
  rw [List.mem_toFinset, List.mem_filterMap]
  constructor
  · rintro ⟨x, hx, heq⟩
    cases x with
    | text t => exact Option.some.inj heq ▸ hx
    | nil | bool | number => simp [Datum.text?] at heq
  · exact fun h => ⟨.text text, h, rfl⟩

/-- **The size of a pool** is the number of places that its constants take. -/
theorem length_addAll_nil (xs : List Datum) : (addAll [] xs).length = poolSize xs := by
  induction xs using List.reverseRecOn with
  | nil => rfl
  | append_singleton xs x ih =>
    rw [addAll_append, addAll_singleton, poolSize, List.countP_append, List.filterMap_append,
      List.toFinset_append]
    rw [poolSize] at ih
    cases hx : x.text? with
    | none =>
      rw [add_of_text?_eq_none hx, List.length_append, ih]
      simp [hx]
      omega
    | some t =>
      obtain rfl : x = .text t := by
        cases x with
        | text => exact congrArg _ (Option.some.inj hx)
        | nil | bool | number => simp [Datum.text?] at hx
      have hcount : List.countP (·.text? = none) [Datum.text t] = 0 := by simp [Datum.text?]
      have hfilter : [Datum.text t].filterMap Datum.text? = [t] := rfl
      rw [hcount, hfilter, Nat.add_zero]
      have hmem : .text t ∈ addAll [] xs ↔ t ∈ (xs.filterMap Datum.text?).toFinset := by
        rw [mem_addAll_iff, mem_filterMap_text?]
        simp
      have hsingle : [t].toFinset = {t} := rfl
      by_cases ht : t ∈ (xs.filterMap Datum.text?).toFinset
      · rw [add_text_of_mem (hmem.mpr ht), ih, hsingle,
          Finset.union_eq_left.mpr (Finset.singleton_subset_iff.mpr ht)]
      · rw [add_text_of_not_mem (mt hmem.mp ht), List.length_append, ih, hsingle,
          Finset.union_comm, ← Finset.insert_eq, Finset.card_insert_of_notMem ht]
        simp only [List.length_singleton]
        omega

/-- Constants take no fewer places among others. -/
theorem length_addAll_nil_le (xs ys : List Datum) :
    (addAll [] ys).length ≤ (addAll [] (xs ++ ys)).length := by
  rw [length_addAll_nil, length_addAll_nil, poolSize, poolSize, List.countP_append,
    List.filterMap_append, List.toFinset_append]
  exact Nat.add_le_add (Nat.le_add_left _ _) (Finset.card_le_card Finset.subset_union_right)

theorem countP_add (pool : Pool) (x : Datum) :
    (pool.add x).countP (·.text? = none) =
      pool.countP (·.text? = none) + [x].countP (·.text? = none) := by
  cases x with
  | text t =>
    by_cases hmem : .text t ∈ pool
    · rw [add_text_of_mem hmem]
      rfl
    · rw [add_text_of_not_mem hmem, List.countP_append]
  | nil | bool | number => exact List.countP_append

theorem countP_addAll (pool : Pool) (xs : List Datum) :
    (pool.addAll xs).countP (·.text? = none) =
      pool.countP (·.text? = none) + xs.countP (·.text? = none) := by
  induction xs generalizing pool with
  | nil => rfl
  | cons x xs ih =>
    rw [addAll_cons, ih, countP_add, Nat.add_assoc, ← List.countP_append, List.singleton_append]

/-- The places that constants take together with others are those that their pools take. -/
theorem poolSize_addAll_append (xs ys : List Datum) :
    poolSize (addAll [] xs ++ addAll [] ys) = poolSize (xs ++ ys) := by
  have htexts : ∀ xs, ((addAll [] xs).filterMap Datum.text?).toFinset =
      (xs.filterMap Datum.text?).toFinset := by
    intro xs
    ext text
    rw [mem_filterMap_text?, mem_filterMap_text?, mem_addAll_iff]
    exact or_iff_right List.not_mem_nil
  rw [poolSize, poolSize, List.countP_append, List.countP_append, countP_addAll, countP_addAll,
    List.filterMap_append, List.filterMap_append, List.toFinset_append, List.toFinset_append,
    htexts, htexts, List.countP_nil, Nat.zero_add, Nat.zero_add]

end Pool

end Lox
