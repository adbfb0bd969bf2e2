import Lox.Proofs.SymbolTable.Unguarded
import Mathlib.Data.Finmap

/-!
# Tables are finite maps

Several tables that start empty are served requests, one after the other. Whatever the requests are,
the tables answer what finite maps would answer, and in the end each of them holds what its finite
map holds. It makes no difference whether the operations are those with safeguards or those without.

## Main definitions

* `Request`, `Reply`: what can be asked of tables, and what they answer.
* `Request.onTables`, `Request.walking`, `Request.onMaps`: serving a request on tables, without
  safeguards, and on finite maps.
* `serveAll`, `serveAll?`: serving requests one after the other, with and without safeguards.
* `Agrees`: a valid table finds what a finite map holds.
* `Shows`: what can be seen of such a table.

## Main results

* `Agrees.serve`: serving one request keeps tables and maps in agreement.
* `serveAll_tables`: serving any number of requests.
-/

namespace Lox

namespace SymbolTable

/-- A finite map from symbols to values. -/
abbrev FiniteMap (α : Type) : Type := Finmap fun _ : Symbol => α

variable {ι α : Type} {t other : SymbolTable α} {m m' : FiniteMap α} {key : Symbol} {value : α}

/-! ### Requests -/

/-- A request to one of several tables. A merge has a second table as its source. -/
inductive Request (ι α : Type) where
  | insert (table : ι) (key : Symbol) (value : α)
  | erase (table : ι) (key : Symbol)
  | find (table : ι) (key : Symbol)
  | replace (table : ι) (key : Symbol) (value : α)
  | contains (table : ι) (key : Symbol)
  | merge (table source : ι)

/-- What a request is answered: whether something holds, a value, or nothing of interest. -/
inductive Reply (α : Type) where
  | flag (holds : Bool)
  | value (found : Option α)
  | done

section Serving

variable [DecidableEq ι]

/-- Serves a request by the operations on tables. -/
def Request.onTables (tables : ι → SymbolTable α) : Request ι α → Reply α × (ι → SymbolTable α)
  | .insert i key value =>
    let (isNew, t) := (tables i).insert key value
    (.flag isNew, Function.update tables i t)
  | .erase i key =>
    let (present, t) := (tables i).erase key
    (.flag present, Function.update tables i t)
  | .find i key => (.value ((tables i).find? key), tables)
  | .replace i key value =>
    let (old, t) := (tables i).replace key value
    (.value old, Function.update tables i t)
  | .contains i key => (.flag ((tables i).contains key), tables)
  | .merge i source => (.done, Function.update tables i ((tables i).merge (tables source)))

/-- Serves a request by the operations without safeguards, with their walks left open. -/
def Request.walking (tables : ι → SymbolTable α) :
    Request ι α → Walking α (Reply α × (ι → SymbolTable α))
  | .insert i key value => do
    let (isNew, t) ← Walking.insert (tables i) key value
    pure (.flag isNew, Function.update tables i t)
  | .erase i key => do
    let (present, t) ← Walking.erase (tables i) key
    pure (.flag present, Function.update tables i t)
  | .find i key => do pure (.value (← Walking.find? (tables i) key), tables)
  | .replace i key value => do
    let (old, t) ← Walking.replace (tables i) key value
    pure (.value old, Function.update tables i t)
  | .contains i key => do pure (.flag (← Walking.contains (tables i) key), tables)
  | .merge i source => do
    let t ← Walking.merge (tables i) (tables source)
    pure (.done, Function.update tables i t)

/-- Serves requests one after the other without safeguards, with all walks left open. -/
def serveAllWalking (tables : ι → SymbolTable α) :
    List (Request ι α) → Walking α (List (Reply α) × (ι → SymbolTable α))
  | [] => pure ([], tables)
  | r :: rs => do
    let (reply, tables) ← r.walking tables
    let (replies, tables) ← serveAllWalking tables rs
    pure (reply :: replies, tables)

/-- Serves requests one after the other without safeguards, if all walks come to something. -/
noncomputable def serveAll? (tables : ι → SymbolTable α) (requests : List (Request ι α)) :
    Option (List (Reply α) × (ι → SymbolTable α)) :=
  (serveAllWalking tables requests).run Unguarded.locate

/-- Serves a request on finite maps. What is merged in takes precedence. -/
def Request.onMaps (maps : ι → FiniteMap α) : Request ι α → Reply α × (ι → FiniteMap α)
  | .insert i key value =>
    (.flag (decide (key ∉ maps i)), Function.update maps i ((maps i).insert key value))
  | .erase i key => (.flag (decide (key ∈ maps i)), Function.update maps i ((maps i).erase key))
  | .find i key => (.value ((maps i).lookup key), maps)
  | .replace i key value =>
    (.value ((maps i).lookup key),
      if key ∈ maps i then Function.update maps i ((maps i).insert key value) else maps)
  | .contains i key => (.flag (decide (key ∈ maps i)), maps)
  | .merge i source => (.done, Function.update maps i (maps source ∪ maps i))

end Serving

/-- Serves requests one after the other, each in the state that the one before has left. -/
def serveAll {σ : Type} (serve : σ → Request ι α → Reply α × σ) (s : σ) :
    List (Request ι α) → List (Reply α) × σ
  | [] => ([], s)
  | r :: rs =>
    let (reply, s) := serve s r
    let (replies, s) := serveAll serve s rs
    (reply :: replies, s)

/-! ### Agreement -/

/-- The table is valid and finds what the map holds. -/
structure Agrees (t : SymbolTable α) (m : FiniteMap α) : Prop where
  valid : t.Valid
  find? : ∀ key, t.find? key = m.lookup key

theorem agrees_empty : Agrees (empty : SymbolTable α) ∅ where
  valid := valid_empty
  find? key := by rw [find?_empty, Finmap.lookup_empty]

theorem Agrees.mem_iff (h : Agrees t m) : key ∈ m ↔ (t.find? key).isSome := by
  rw [h.find?, Finmap.lookup_isSome]

theorem Agrees.not_mem_iff (h : Agrees t m) : key ∉ m ↔ t.find? key = none := by
  rw [h.find?, Finmap.lookup_eq_none]

/-- An update of a table agrees with an update of a map if both do the same to one key. -/
theorem Agrees.update (h : Agrees t m) (hvalid : other.Valid) {new : Option α}
    (htable : ∀ k, other.find? k = if k = key then new else t.find? k)
    (hkey : m'.lookup key = new) (hrest : ∀ k, k ≠ key → m'.lookup k = m.lookup k) :
    Agrees other m' where
  valid := hvalid
  find? k := by
    rw [htable]
    by_cases hk : k = key
    · rw [if_pos hk, hk, hkey]
    · rw [if_neg hk, h.find?, hrest k hk]

theorem Agrees.insert (h : Agrees t m) (key : Symbol) (value : α) :
    Agrees (t.insert key value).2 (m.insert key value) :=
  h.update (h.valid.insert key value) (h.valid.find?_insert key value) (Finmap.lookup_insert m)
    fun _ hk => Finmap.lookup_insert_of_ne m hk

/-- Inserting says whether the key is new: the slot it is put into holds no entry. -/
theorem Valid.insert_fst (h : t.Valid) (key : Symbol) (value : α) :
    (t.insert key value).1 = true ↔ t.find? key = none := by
  obtain ⟨t', heq, hvalid, hroom, hsame⟩ := h.roomy
  rw [h.find?_congr hvalid fun v => (hsame key v).symm, SymbolTable.insert, heq, find?]
  cases t'.slots.getD (locate t'.slots key) .vacant with
  | vacant | tombstone => exact ⟨fun _ => rfl, fun _ => rfl⟩
  | entry other v => exact ⟨fun hnew => absurd hnew Bool.false_ne_true,
      fun hnone => absurd hnone (Option.some_ne_none v)⟩

theorem Agrees.insert_fst (h : Agrees t m) (key : Symbol) (value : α) :
    (t.insert key value).1 = decide (key ∉ m) :=
  Bool.eq_iff_iff.mpr <| by rw [h.valid.insert_fst, decide_eq_true_iff, h.not_mem_iff]

theorem Agrees.contains_eq (h : Agrees t m) (key : Symbol) : t.contains key = decide (key ∈ m) :=
  Bool.eq_iff_iff.mpr <| by rw [contains, decide_eq_true_iff, h.mem_iff]

/-- Erasing takes the key away and says whether it was there. -/
theorem Agrees.erase (h : Agrees t m) (key : Symbol) :
    (t.erase key).1 = decide (key ∈ m) ∧ Agrees (t.erase key).2 (m.erase key) := by
  cases hfind : t.find? key with
  | none =>
    have habsent : key ∉ m := h.not_mem_iff.mpr hfind
    rw [erase_of_find?_eq_none hfind, decide_eq_false habsent]
    have hsame : ∀ k, t.find? k = if k = key then none else t.find? k := by
      intro k
      by_cases hk : k = key
      · rw [if_pos hk, hk, hfind]
      · rw [if_neg hk]
    exact ⟨rfl, h.update h.valid hsame (Finmap.lookup_erase key m)
      fun k hk => Finmap.lookup_erase_ne hk⟩
  | some old =>
    have hpresent : key ∈ m := h.mem_iff.mpr (by rw [hfind]; rfl)
    obtain ⟨hold, hvalid, hfind'⟩ := h.valid.erase_of_find?_eq_some hfind
    rw [hold, decide_eq_true hpresent]
    exact ⟨rfl, h.update hvalid hfind' (Finmap.lookup_erase key m)
      fun k hk => Finmap.lookup_erase_ne hk⟩

/-- Replacing answers the old value, and changes something only if there is one. -/
theorem Agrees.replace (h : Agrees t m) (key : Symbol) (value : α) :
    (t.replace key value).1 = m.lookup key ∧
      Agrees (t.replace key value).2 (if key ∈ m then m.insert key value else m) := by
  cases hfind : t.find? key with
  | none =>
    have habsent : key ∉ m := h.not_mem_iff.mpr hfind
    rw [replace_of_find?_eq_none hfind, if_neg habsent, ← h.find?, hfind]
    exact ⟨rfl, h⟩
  | some old =>
    have hpresent : key ∈ m := h.mem_iff.mpr (by rw [hfind]; rfl)
    obtain ⟨hold, hvalid, hfind'⟩ := h.valid.replace_of_find?_eq_some hfind value
    rw [hold, if_pos hpresent, ← h.find?, hfind]
    exact ⟨rfl, h.update hvalid hfind' (Finmap.lookup_insert m)
      fun k hk => Finmap.lookup_insert_of_ne m hk⟩

/-! ### Merging -/

/-- The entries of a table are the bindings of the map. -/
theorem Agrees.mem_entries_iff (h : Agrees t m) :
    (key, value) ∈ t.entries ↔ m.lookup key = some value := by
  rw [SymbolTable.mem_entries_iff, ← h.valid.find?_eq_some_iff, h.find?]

theorem Agrees.nodup_keys (h : Agrees t m) : (t.entries.map Prod.fst).Nodup :=
  h.valid.chained.nodup_entries

/-- Inserting entries with different keys one after the other. -/
theorem Agrees.inserts (h : Agrees t m) {entries : List (Symbol × α)}
    (hnodup : (entries.map Prod.fst).Nodup)
    (hpresent : ∀ k v, (k, v) ∈ entries → m'.lookup k = some v)
    (habsent : ∀ k, k ∉ entries.map Prod.fst → m'.lookup k = m.lookup k) :
    Agrees (entries.foldl (fun t e => (t.insert e.1 e.2).2) t) m' := by
  induction entries generalizing t m with
  | nil => exact ⟨h.valid, fun k => by rw [habsent k List.not_mem_nil]; exact h.find? k⟩
  | cons e entries ih =>
    rw [List.map_cons, List.nodup_cons] at hnodup
    refine ih (h.insert e.1 e.2) hnodup.2
      (fun k v hmem => hpresent k v (List.mem_cons_of_mem _ hmem)) fun k hk => ?_
    by_cases heq : k = e.1
    · rw [heq, Finmap.lookup_insert]
      exact hpresent e.1 e.2 List.mem_cons_self
    · rw [Finmap.lookup_insert_of_ne m heq]
      refine habsent k fun hmem => ?_
      rw [List.map_cons, List.mem_cons] at hmem
      exact hmem.elim heq hk

/-- **Merging** is the union in which the source takes precedence. -/
theorem Agrees.merge (h : Agrees t m) (hother : Agrees other m') :
    Agrees (t.merge other) (m' ∪ m) := by
  refine h.inserts hother.nodup_keys (fun k v hmem => ?_) fun k hk => ?_
  · have hlookup := hother.mem_entries_iff.mp hmem
    rw [Finmap.lookup_union_left (Finmap.lookup_isSome.mp (by rw [hlookup]; rfl)), hlookup]
  · refine Finmap.lookup_union_right fun hmem => hk ?_
    obtain ⟨v, hv⟩ := Option.isSome_iff_exists.mp (Finmap.lookup_isSome.mpr hmem)
    exact List.mem_map.mpr ⟨(k, v), hother.mem_entries_iff.mpr hv, rfl⟩

/-! ### Requests one after the other -/

section Serving

variable [DecidableEq ι] {tables : ι → SymbolTable α} {maps : ι → FiniteMap α}

/-- An update of one table and one map keeps all in agreement. -/
theorem agrees_function_update (h : ∀ i, Agrees (tables i) (maps i)) {i : ι} (hi : Agrees t m)
    (j : ι) : Agrees (Function.update tables i t j) (Function.update maps i m j) := by
  by_cases hj : j = i
  · rw [hj, Function.update_self, Function.update_self]
    exact hi
  · rw [Function.update_of_ne hj, Function.update_of_ne hj]
    exact h j

/-- **Serving a request** has the answer of the finite maps, and keeps tables and maps in
agreement. -/
theorem Agrees.serve (h : ∀ i, Agrees (tables i) (maps i)) (r : Request ι α) :
    (r.onTables tables).1 = (r.onMaps maps).1 ∧
      ∀ i, Agrees ((r.onTables tables).2 i) ((r.onMaps maps).2 i) := by
  cases r with
  | insert i key value =>
    exact ⟨congrArg Reply.flag ((h i).insert_fst key value),
      agrees_function_update h ((h i).insert key value)⟩
  | erase i key =>
    obtain ⟨hflag, hagrees⟩ := (h i).erase key
    exact ⟨congrArg Reply.flag hflag, agrees_function_update h hagrees⟩
  | find i key => exact ⟨congrArg Reply.value ((h i).find? key), h⟩
  | replace i key value =>
    obtain ⟨hold, hagrees⟩ := (h i).replace key value
    refine ⟨congrArg Reply.value hold, fun j => ?_⟩
    have hafter := agrees_function_update (i := i) h hagrees j
    rw [Request.onMaps]
    by_cases hmem : key ∈ maps i
    · rwa [if_pos hmem] at hafter ⊢
    · rw [if_neg hmem, Function.update_eq_self] at hafter
      rwa [if_neg hmem]
  | contains i key => exact ⟨congrArg Reply.flag ((h i).contains_eq key), h⟩
  | merge i source =>
    exact ⟨rfl, agrees_function_update h ((h i).merge (h source))⟩

/-- Among valid tables a request has its result without safeguards. -/
theorem yields_walking (h : ∀ i, (tables i).Valid) (r : Request ι α) :
    (r.walking tables).Yields (r.onTables tables) := by
  cases r with
  | insert i key value => exact ((h i).yields_insert key value).bind (.pure _)
  | erase i key => exact ((h i).yields_erase key).bind (.pure _)
  | find i key => exact ((h i).yields_find? key).bind (.pure _)
  | replace i key value => exact ((h i).yields_replace key value).bind (.pure _)
  | contains i key => exact ((h i).yields_contains key).bind (.pure _)
  | merge i source => exact ((h i).yields_merge (tables source)).bind (.pure _)

/-- **Serving any number of requests.** -/
theorem Agrees.serveAll (h : ∀ i, Agrees (tables i) (maps i)) (requests : List (Request ι α)) :
    (serveAllWalking tables requests).Yields
        (SymbolTable.serveAll Request.onTables tables requests) ∧
      (SymbolTable.serveAll Request.onTables tables requests).1 =
        (SymbolTable.serveAll Request.onMaps maps requests).1 ∧
      ∀ i, Agrees ((SymbolTable.serveAll Request.onTables tables requests).2 i)
        ((SymbolTable.serveAll Request.onMaps maps requests).2 i) := by
  induction requests generalizing tables maps with
  | nil => exact ⟨.pure _, rfl, h⟩
  | cons r rs ih =>
    obtain ⟨hreply, hagrees⟩ := Agrees.serve h r
    obtain ⟨hyields, hreplies, hall⟩ := ih hagrees
    exact ⟨(yields_walking (fun i => (h i).valid) r).bind (hyields.bind (.pure _)),
      congrArg₂ List.cons hreply hreplies, hall⟩

end Serving

/-! ### What a table shows -/

/-- The table shows what the map holds: what each key finds, how many entries there are, and every
binding once when the entries are listed. -/
structure Shows (t : SymbolTable α) (m : FiniteMap α) : Prop where
  find? : ∀ key, t.find? key = m.lookup key
  size : t.size = m.keys.card
  isEmpty : t.isEmpty = true ↔ m = ∅
  listed : ∀ key value, (key, value) ∈ t.entries ↔ m.lookup key = some value
  once : (t.entries.map Prod.fst).Nodup

theorem Agrees.size_eq (h : Agrees t m) : t.size = m.keys.card := by
  have hkeys : (t.entries.map Prod.fst).toFinset = m.keys := by
    ext k
    rw [List.mem_toFinset, Finmap.mem_keys, ← Finmap.lookup_isSome, List.mem_map,
      Option.isSome_iff_exists]
    constructor
    · rintro ⟨⟨_, v⟩, hmem, rfl⟩
      exact ⟨v, h.mem_entries_iff.mp hmem⟩
    · rintro ⟨v, hv⟩
      exact ⟨(k, v), h.mem_entries_iff.mpr hv, rfl⟩
  rw [← hkeys, List.toFinset_card_of_nodup h.nodup_keys, List.length_map, length_entries,
    h.valid.size]

theorem Agrees.shows (h : Agrees t m) : Shows t m where
  find? := h.find?
  size := h.size_eq
  isEmpty := by
    rw [isEmpty, beq_iff_eq, h.size_eq, Finset.card_eq_zero]
    constructor
    · intro hkeys
      refine Finmap.ext_lookup fun k => ?_
      rw [Finmap.lookup_empty, Finmap.lookup_eq_none, ← Finmap.mem_keys, hkeys]
      exact Finset.notMem_empty k
    · rintro rfl
      exact Finmap.keys_empty
  listed _ _ := h.mem_entries_iff
  once := h.nodup_keys

/-- **Tables refine finite maps.** However many tables there are, all empty at first, and whatever
is asked of them: no request needs a safeguard, the replies are those of finite maps, and in the end
each table shows what its finite map holds. -/
theorem serveAll_tables [DecidableEq ι] (requests : List (Request ι α)) :
    let served := serveAll Request.onTables (fun _ => (empty : SymbolTable α)) requests
    let specified := serveAll Request.onMaps (fun _ => (∅ : FiniteMap α)) requests
    serveAll? (fun _ => empty) requests = some served ∧
      served.1 = specified.1 ∧ ∀ i, Shows (served.2 i) (specified.2 i) := by
  obtain ⟨hyields, hreplies, hall⟩ := Agrees.serveAll (fun _ => agrees_empty) requests
  exact ⟨hyields.run, hreplies, fun i => (hall i).shows⟩

end SymbolTable

end Lox
