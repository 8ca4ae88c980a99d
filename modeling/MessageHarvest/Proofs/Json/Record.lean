import MessageHarvest.Proofs.Json.Layout
import MessageHarvest.Proofs.Json.Shape
import MessageHarvest.Proofs.Json.Skipping

/-!
# Records in any order

A record is read from the entries of an object one after the other. Each of its fields goes to a
slot of its own, which is empty until then, and an entry of another name is passed over, so that
neither the order of the fields matters nor what is among them.

* `ReadsFields`: what a reader of entries has to do with one of them.
* `ReadsFields.reads_record`: what is read from an object that has some fields of the record, each
  of them once. `Plain.read_of_reads`: the same for a whole text.
-/

namespace MessageHarvest.Json

variable {σ α : Type}

/-- The reader puts each of the fields `own` into its slot if that is empty (`isOpen`), and passes
over entries of other names. The slots are filled (`fill`) independently of each other. -/
structure ReadsFields (bound : Nat) (own : List (String × Json)) (isOpen : σ → String → Bool)
    (fill : σ → String × Json → σ) (step : σ → String → Reader σ) : Prop where
  nodup : (own.map Prod.fst).Nodup
  reads : ∀ {state key v more text rest}, (key, v) ∈ own → isOpen state key = true →
    skipSpace more = ':' :: text → Spells (.value v) (skipSpace text) rest →
    text.length ≤ bound → step state key more = .ok (fill state (key, v), rest)
  passes : ∀ {state key more rest}, key ∉ own.map Prod.fst →
    unknownField bound more = .ok rest → step state key more = .ok (state, rest)
  isOpen_fill : ∀ {e f}, e ∈ own → f ∈ own → e.1 ≠ f.1 →
    ∀ state, isOpen (fill state e) f.1 = isOpen state f.1
  fill_comm : ∀ {e f}, e ∈ own → f ∈ own →
    ∀ state, fill (fill state e) f = fill (fill state f) e
  fill_other : ∀ {e}, e.1 ∉ own.map Prod.fst → ∀ state, fill state e = state

/-- What may be left to read: fields of the record with empty slots, none of them twice, and entries
of other names. -/
structure Awaits (own : List (String × Json)) (isOpen : σ → String → Bool) (state : σ)
    (es : List (String × Json)) : Prop where
  field : ∀ e ∈ es, e.1 ∈ own.map Prod.fst → e ∈ own ∧ isOpen state e.1 = true
  once : es.Pairwise fun e f => e.1 = f.1 → e.1 ∉ own.map Prod.fst

section

variable {bound : Nat} {own kept extra es : List (String × Json)} {isOpen : σ → String → Bool}
  {fill : σ → String × Json → σ} {step : σ → String → Reader σ} {state start : σ}

namespace ReadsFields

theorem awaits_of_perm (h : ReadsFields bound own isOpen fill step)
    (hperm : es.Perm (kept ++ extra)) (hkept : kept.Sublist own)
    (hextra : ∀ e ∈ extra, e.1 ∉ own.map Prod.fst)
    (hopen : ∀ e ∈ own, isOpen start e.1 = true) : Awaits own isOpen start es where
  field e he hname := by
    rcases List.mem_append.mp (hperm.mem_iff.mp he) with hmem | hmem
    · exact ⟨hkept.subset hmem, hopen e (hkept.subset hmem)⟩
    · exact absurd hname (hextra e hmem)
  once := by
    have hsymm : ∀ {e f : String × Json}, (e.1 = f.1 → e.1 ∉ own.map Prod.fst) →
        f.1 = e.1 → f.1 ∉ own.map Prod.fst :=
      fun h heq => heq ▸ h heq.symm
    have hdistinct : kept.Pairwise fun e f => e.1 ≠ f.1 :=
      List.pairwise_map.mp (h.nodup.sublist (hkept.map Prod.fst))
    rw [hperm.pairwise_iff hsymm, List.pairwise_append]
    refine ⟨hdistinct.imp fun hne heq => absurd heq hne, ?_, ?_⟩
    · exact List.pairwise_of_forall_mem_list fun e he f _ _ => hextra e he
    · exact fun e _ f hf heq => heq ▸ hextra f hf

theorem awaits_fill (h : ReadsFields bound own isOpen fill step) {e : String × Json}
    (hawaits : Awaits own isOpen state (e :: es)) : Awaits own isOpen (fill state e) es := by
  obtain ⟨hfirst, hlater⟩ := List.pairwise_cons.mp hawaits.once
  refine ⟨fun f hf hname => ?_, hlater⟩
  obtain ⟨hmem, hopen⟩ := hawaits.field f (List.mem_cons_of_mem e hf) hname
  by_cases he : e.1 ∈ own.map Prod.fst
  · have hne : e.1 ≠ f.1 := fun heq => hfirst f hf heq he
    have hown := (hawaits.field e List.mem_cons_self he).1
    exact ⟨hmem, (h.isOpen_fill hown hmem hne state).trans hopen⟩
  · rw [h.fill_other he]
    exact ⟨hmem, hopen⟩

/-- The slots may be filled in any order. -/
theorem foldl_fill (h : ReadsFields bound own isOpen fill step) (hperm : es.Perm (kept ++ extra))
    (hkept : kept.Sublist own) (hextra : ∀ e ∈ extra, e.1 ∉ own.map Prod.fst) (start : σ) :
    es.foldl fill start = kept.foldl fill start := by
  have hcases : ∀ e ∈ es, e ∈ own ∨ e.1 ∉ own.map Prod.fst := by
    intro e he
    rcases List.mem_append.mp (hperm.mem_iff.mp he) with hmem | hmem
    · exact .inl (hkept.subset hmem)
    · exact .inr (hextra e hmem)
  have hcomm : ∀ e ∈ es, ∀ f ∈ es, ∀ state, fill (fill state e) f = fill (fill state f) e := by
    intro e he f hf state
    rcases hcases e he with he | he
    · rcases hcases f hf with hf | hf
      · exact h.fill_comm he hf state
      · rw [h.fill_other hf, h.fill_other hf]
    · rw [h.fill_other he, h.fill_other he]
  have hnothing : ∀ state, extra.foldl fill state = state := by
    intro state
    exact List.foldlRecOn (motive := (· = state)) extra fill rfl
      fun s hs e he => (h.fill_other (hextra e he) s).trans hs
  rw [hperm.foldl_eq' hcomm, List.foldl_append, hnothing]

/-- An object with some fields of the record, each once and in any order, is read as these fields
are, and whatever else it has is passed over. -/
theorem foldEntries_eq (h : ReadsFields bound own isOpen fill step)
    (hperm : es.Perm (kept ++ extra)) (hkept : kept.Sublist own)
    (hextra : ∀ e ∈ extra, e.1 ∉ own.map Prod.fst)
    (hopen : ∀ e ∈ own, isOpen start e.1 = true) {text rest : List Char}
    (hspells : Spells (.entries true es) text rest) (hlength : text.length ≤ bound) :
    Container.foldEntries step bound true start text = .ok (kept.foldl fill start, rest) := by
  have hfold : Yields (∀ e ∈ es, True) (es.foldl fill start, rest)
      (Container.foldEntries step bound true start text) := by
    refine Container.foldEntries_of_spells fill (Awaits own isOpen) h.awaits_fill ?_ hspells bound
      hlength hlength (h.awaits_of_perm hperm hkept hextra hopen)
    intro key v es more text rest state hawaits hcolon hv hlength
    by_cases hname : key ∈ own.map Prod.fst
    · obtain ⟨hmem, hopen⟩ := hawaits.field _ List.mem_cons_self hname
      exact .of_eq (h.reads hmem hopen hcolon hv hlength)
    · rw [h.fill_other hname]
      exact .of_eq (h.passes hname (unknownField_of_spells hcolon hv hlength))
  rw [hfold.reads fun _ _ => trivial, h.foldl_fill hperm hkept hextra]

/-- Wherever such an object is spelled, the record is read that these fields make up (`next`). -/
theorem reads_record (h : ReadsFields bound own isOpen fill step)
    (hperm : es.Perm (kept ++ extra)) (hkept : kept.Sublist own)
    (hextra : ∀ e ∈ extra, e.1 ∉ own.map Prod.fst)
    (hopen : ∀ e ∈ own, isOpen start e.1 = true) {expected : String} {ofList : Reader α}
    {next : σ × List Char → Except Stop (α × List Char)} {a : α}
    (hnext : ∀ rest, next (kept.foldl fill start, rest) = .ok (a, rest)) :
    Reads bound
      (record expected ofList fun text => Container.foldEntries step bound true start text >>= next)
      (.object es) a := by
  intro text rest hspells hlength
  obtain ⟨inside, hentries, hinside, hrecord⟩ := record_of_object hspells expected ofList
    fun text => Container.foldEntries step bound true start text >>= next
  have hfold := h.foldEntries_eq hperm hkept hextra hopen hentries (Nat.le_trans hinside hlength)
  rw [hrecord, hfold, ok_bind, hnext]

end ReadsFields

end

/-- What is read wherever a value is spelled is read from every layout of the value. -/
theorem Plain.read_of_reads {v : Json} {a : α} {source : String} (h : v.Plain)
    {reader : Nat → Reader α} (hreader : ∀ bound, Reads bound (reader bound) v a)
    (hlays : Lays v.tokens source.toList) : read reader source = .ok a := by
  obtain ⟨rest, hspells, hrest⟩ := h.exists_spells_of_lays hlays
  exact read_of_reader (hreader _ _ _ hspells (Nat.le_succ _)) hrest

end MessageHarvest.Json
