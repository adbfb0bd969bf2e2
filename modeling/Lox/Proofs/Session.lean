import Lox.Proofs.Session.Machine

/-!
# Symbols mean texts

Throughout the life of a world a symbol means the text it was given out for. No request takes that
away: interning, compiling and running only add to the record of what has been issued, which is
complete at any time.

## Main definitions

* `Session.Accounted`: the invariant of a session.

## Main results

* `Session.Accounted.serve`: a request keeps the invariant.
* `Session.symbols_mean_texts`: what symbols tell about texts, in any session.
-/

namespace Lox

namespace Session

variable {s s' : Session}

/-- The record of a session is complete, and all that the session holds belongs to its interner. -/
structure Accounted (s : Session) : Prop where
  recorded : s.world.interner.Recorded s.issued
  world : s.world.WellFormed
  chunks : ∀ c ∈ s.chunks, c.Belongs s.world.interner

theorem accounted_new : new.Accounted where
  recorded := Interner.recorded_empty
  world := World.wellFormed_empty
  chunks c hc := absurd hc (Array.not_mem_empty c)

namespace Accounted

/-! ### Requests -/

theorem recorded_record (h : s.Accounted) (texts : List String) :
    (s.world.interner.internAll texts).2.Recorded (s.record texts) := h.recorded.internAll texts

theorem chunks_internAll (h : s.Accounted) (texts : List String) :
    ∀ c ∈ s.chunks, c.Belongs (s.world.interner.internAll texts).2 :=
  fun c hc => (h.chunks c hc).mono (Interner.grows_internAll s.world.interner texts)

theorem intern (h : s.Accounted) (text : String) : (s.intern text).Accounted where
  recorded := h.recorded_record [text]
  world := h.world.intern text
  chunks := h.chunks_internAll [text]

theorem compile (h : s.Accounted) {limits : Limits} {source : String}
    (hcompile : s.compile limits source = some s') : s'.Accounted := by
  obtain ⟨⟨c, world⟩, hworld, rfl⟩ := Option.map_eq_some_iff.mp hcompile
  obtain ⟨c', hc, heq⟩ := Option.map_eq_some_iff.mp hworld
  obtain ⟨rfl, rfl⟩ := Prod.mk.inj heq
  have hinterner := interner_of_compile hc
  refine ⟨?_, h.world.grow (grows_of_compile hc), fun c hmem => ?_⟩
  · rw [hinterner]
    exact h.recorded_record _
  rcases Array.mem_push.mp hmem with hold | rfl
  · rw [hinterner]
    exact h.chunks_internAll _ c hold
  · exact denotes_of_compile hc

theorem keeps (h : s.Accounted) {c : Chunk} (hc : c ∈ s.chunks) (bound : Nat) :
    Machine.Keeps s.world.interner ((Machine.start s.world).trace c bound).1 (s.machine c bound) :=
  (Machine.belongs_start h.world).trace (h.chunks c hc) bound

theorem run (h : s.Accounted) {c : Chunk} (hc : c ∈ s.chunks) (bound : Nat) :
    (s.run c bound).Accounted := by
  have hkeeps := h.keeps hc bound
  refine ⟨?_, hkeeps.belongs.world, ?_⟩
  · show (s.machine c bound).world.interner.Recorded _
    rw [hkeeps.interner]
    exact h.recorded_record _
  · show ∀ c' ∈ s.chunks, c'.Belongs (s.machine c bound).world.interner
    rw [hkeeps.interner]
    exact h.chunks_internAll _

/-- **A request** leaves a session accounted for. -/
theorem serve (h : s.Accounted) (request : Request) (hserve : s.serve request = some s') :
    s'.Accounted := by
  cases request with
  | intern text =>
    obtain rfl := Option.some.inj hserve
    exact h.intern text
  | find text =>
    obtain rfl := Option.some.inj hserve
    exact h
  | compile limits source => exact h.compile hserve
  | run index bound =>
    rw [Session.serve] at hserve
    cases hget : s.chunks[index]? with
    | none =>
      rw [hget] at hserve
      exact Option.some.inj hserve ▸ h
    | some c =>
      rw [hget] at hserve
      exact Option.some.inj hserve ▸ h.run (Array.mem_of_getElem? hget) bound

/-- **Any requests** leave a session accounted for. -/
theorem serveAll (h : s.Accounted) {requests : List Request}
    (hserve : s.serveAll requests = some s') : s'.Accounted := by
  induction requests generalizing s with
  | nil => exact Option.some.inj hserve ▸ h
  | cons request requests ih =>
    rw [Session.serveAll, List.foldlM_cons] at hserve
    obtain ⟨next, hnext, hrest⟩ := Option.bind_eq_some_iff.mp hserve
    exact ih (h.serve request hnext) hrest

/-! ### Symbols -/

/-- A string of the interner has been issued. -/
theorem exists_issued (h : s.Accounted) {symbol : Symbol}
    (hv : Value.Belongs s.world.interner (.string symbol)) :
    ∃ text, ⟨symbol, text⟩ ∈ s.issued := by
  obtain ⟨text, hfind⟩ := hv.exists_find?
  exact ⟨text, (h.recorded text symbol).mp hfind⟩

/-- **Symbols are equal exactly if their texts are.** -/
theorem symbol_eq_iff (h : s.Accounted) {a b : Issue} (ha : a ∈ s.issued) (hb : b ∈ s.issued) :
    a.symbol = b.symbol ↔ a.text = b.text := by
  have hfind := (h.recorded a.text a.symbol).mpr ha
  have hfind' := (h.recorded b.text b.symbol).mpr hb
  constructor
  · intro heq
    rw [heq] at hfind
    exact Interner.find?_inj hfind hfind'
  · intro heq
    rw [heq] at hfind
    exact Option.some.inj (hfind.symm.trans hfind')

end Accounted

/-! ### The record -/

/-- A request takes nothing off the record. -/
theorem prefix_serve {request : Request} (h : s.serve request = some s') :
    s.issued <+: s'.issued := by
  cases request with
  | intern text =>
    obtain rfl := Option.some.inj h
    exact List.prefix_append ..
  | find text =>
    obtain rfl := Option.some.inj h
    exact List.prefix_refl _
  | compile limits source =>
    obtain ⟨⟨c, world⟩, -, rfl⟩ := Option.map_eq_some_iff.mp h
    exact List.prefix_append ..
  | run index bound =>
    rw [serve] at h
    cases hget : s.chunks[index]? with
    | none =>
      rw [hget] at h
      obtain rfl := Option.some.inj h
      exact List.prefix_refl _
    | some c =>
      rw [hget] at h
      obtain rfl := Option.some.inj h
      exact List.prefix_append ..

theorem prefix_serveAll {requests : List Request} (h : s.serveAll requests = some s') :
    s.issued <+: s'.issued := by
  induction requests generalizing s with
  | nil => exact Option.some.inj h ▸ List.prefix_refl _
  | cons request requests ih =>
    rw [serveAll, List.foldlM_cons] at h
    obtain ⟨next, hnext, hrest⟩ := Option.bind_eq_some_iff.mp h
    exact (prefix_serve hnext).trans (ih hrest)

/-- **Symbols mean texts**, whatever has been asked of a new world. Two symbols that have been issued
are equal exactly if their texts are; each carries the hash of its text, and will always be resolved
to its text; looking a text up finds the symbol issued for it, if there is one, and does nothing
else. The strings among the constants and the globals, the names of the globals, and the strings on
the stack in the midst of a run have all been issued. So when a run comes to compare two strings,
what it finds is whether their texts are equal. -/
theorem symbols_mean_texts {requests : List Request} (h : new.serveAll requests = some s) :
    (∀ a ∈ s.issued, ∀ b ∈ s.issued, a.symbol = b.symbol ↔ a.text = b.text) ∧
    (∀ a ∈ s.issued, a.symbol.hash = fnv1a a.text.toUTF8.data ∧
      ∀ later s', s.serveAll later = some s' → s'.world.interner.text a.symbol = a.text) ∧
    (∀ text, s.serve (.find text) = some s ∧ ∀ symbol,
      s.world.interner.find? text = some symbol ↔ ⟨symbol, text⟩ ∈ s.issued) ∧
    (∀ c ∈ s.chunks, ∀ symbol, .string symbol ∈ c.constants →
      ∃ text, ⟨symbol, text⟩ ∈ s.issued) ∧
    (∀ name v, s.world.globals.find? name = some v → (∃ text, ⟨name, text⟩ ∈ s.issued) ∧
      ∀ symbol, v = .string symbol → ∃ text, ⟨symbol, text⟩ ∈ s.issued) ∧
    ∀ c ∈ s.chunks, ∀ bound,
      (∀ symbol, .string symbol ∈ (s.machine c bound).stack →
        ∃ text, ⟨symbol, text⟩ ∈ (s.run c bound).issued) ∧
      ∀ (below : Array Value) (a b : Symbol),
        (s.machine c bound).stack = (below.push (.string a)).push (.string b) →
        c.code[(s.machine c bound).offset]? = some OpCode.equal.toByte →
        let text := (s.machine c bound).world.interner.text
        (s.machine c bound).step c = .running { s.machine c bound with
          offset := (s.machine c bound).offset + 1
          stack := below.push (.bool (decide (text a = text b))) } := by
  have hs := accounted_new.serveAll h
  refine ⟨fun a ha b hb => hs.symbol_eq_iff ha hb, fun a ha => ⟨?_, ?_⟩,
    fun text => ⟨rfl, hs.recorded text⟩, fun c hc symbol hmem => ?_, fun name v hfind => ?_,
    fun c hc bound => ⟨fun symbol hmem => ?_, fun below a b hstack hcode => ?_⟩⟩
  · have hfind := (hs.recorded a.text a.symbol).mpr ha
    exact (Interner.find?_eq_some_iff.mp hfind).2.symm
  · intro later s' hlater
    exact (hs.serveAll hlater).recorded.text_eq ((prefix_serveAll hlater).subset ha)
  · exact hs.exists_issued (hs.chunks c hc _ hmem)
  · obtain ⟨⟨text, hname⟩, hv⟩ := hs.world.entries name v hfind
    refine ⟨⟨text, (hs.recorded text name).mp hname⟩, ?_⟩
    rintro symbol rfl
    exact hs.exists_issued hv
  · exact (hs.run hc bound).exists_issued ((hs.keeps hc bound).belongs.stack _ hmem)
  · exact (hs.keeps hc bound).belongs.step_equal hstack hcode

/-- A text that is a literal of one source, is put together by a run of another, and is interned by
the host before and after: every time it has the same symbol. -/
theorem symbols_mean_texts_of_interleaving : ∃ s,
    new.serveAll [.intern "xy", .compile {} "print \"xy\";", .compile {} "var a = \"x\" + \"y\";",
      .run 1 4, .run 0 9, .intern "xy", .find "xy"] = some s ∧
    s.issued.map Issue.text = ["xy", "xy", "a", "x", "y", "xy", "xy"] ∧
    ∀ a ∈ s.issued, ∀ b ∈ s.issued, a.symbol = b.symbol ↔ a.text = b.text := by
  have hsession : (new.serveAll [.intern "xy", .compile {} "print \"xy\";",
      .compile {} "var a = \"x\" + \"y\";", .run 1 4, .run 0 9, .intern "xy", .find "xy"]).any
      (·.issued.map Issue.text = ["xy", "xy", "a", "x", "y", "xy", "xy"]) = true := by
    decide +kernel
  obtain ⟨s, hs, htexts⟩ := (Option.any_eq_true _ _).mp hsession
  exact ⟨s, hs, of_decide_eq_true htexts, (symbols_mean_texts hs).1⟩

end Session

end Lox
