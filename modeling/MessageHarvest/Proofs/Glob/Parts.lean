import MessageHarvest.Proofs.Glob.Spelling

/-!
# Patterns that can be read part by part

Before a pattern is expanded it is read twice: as a whole, and part by part between its separators.
A part may be no pattern though the whole is one, for a class may hold a separator: `[a/b]` is a
class, and `[a` is none. This is the only way in which the two readings disagree.

* `Pattern.Reads` is the grammar of patterns in whose classes there is no separator.
* `Pattern.reads_iff_of_parse`: these are the patterns that are read to tokens that name no
  separator.
* `Pattern.reads_iff_segments`: a text is such a pattern if all of its parts are.
* `exists_expand_iff`: these patterns can be expanded, and no others.
-/

namespace MessageHarvest.Glob

/-! ## Classes that name a separator -/

/-- Whether a part of a class is given by a separator. A range that goes over it only holds it. -/
def CharRange.namesSeparator (range : CharRange) : Bool :=
  range.low = separator || range.high = separator

/-- Whether a separator is written in the class that was read to the token. -/
def Token.namesSeparator : Token → Bool
  | within ranges => ranges.any CharRange.namesSeparator
  | except ranges => ranges.any CharRange.namesSeparator
  | _ => false

def Pattern.namesSeparator (pattern : Pattern) : Bool :=
  pattern.tokens.any Token.namesSeparator

namespace Pattern

theorem namesSeparator_classRanges (inside : List Char) :
    (classRanges inside).any CharRange.namesSeparator = true ↔ separator ∈ inside := by
  fun_induction classRanges inside with
  | case1 => simp
  | case2 low high rest ih =>
    have hdash : separator ≠ '-' := by decide
    simp only [List.any_cons, Bool.or_eq_true, ih, CharRange.namesSeparator, decide_eq_true_eq,
      List.mem_cons, hdash, false_or, eq_comm (a := separator)]
    exact or_assoc
  | case3 c rest _ ih =>
    simp [ih, CharRange.namesSeparator, eq_comm (a := separator)]

theorem splitAtBracket?_append {inside : List Char} (h : ']' ∉ inside) (rest : List Char) :
    splitAtBracket? (inside ++ ']' :: rest) = some (inside, rest) := by
  induction inside with
  | nil => simp [splitAtBracket?]
  | cons c inside ih =>
    obtain ⟨hc, hinside⟩ : ']' ≠ c ∧ ']' ∉ inside := by simpa using h
    simp [splitAtBracket?, Ne.symm hc, ih hinside]

theorem of_splitAtBracket? {text inside rest : List Char}
    (h : splitAtBracket? text = some (inside, rest)) :
    text = inside ++ ']' :: rest ∧ ']' ∉ inside := by
  induction text generalizing inside with
  | nil => cases h
  | cons c text ih =>
    unfold splitAtBracket? at h
    split at h
    · rename_i hc
      cases h
      exact ⟨by rw [hc, List.nil_append], List.not_mem_nil⟩
    · rename_i hc
      obtain ⟨⟨front, more⟩, hsplit, h⟩ := Option.map_eq_some_iff.mp h
      cases h
      obtain ⟨rfl, hfront⟩ := ih hsplit
      exact ⟨rfl, by simp [Ne.symm hc, hfront]⟩

/-- Whether these characters after an opening bracket, the closing one among them, are read to the
class, whatever comes after. -/
def IsClass (body : List Char) (token : Token) : Prop :=
  ∀ rest, readClass? (body ++ rest) = some (token, body.length, rest)

/-- What is read as a class depends on its own characters only. -/
theorem exists_body {text rest : List Char} {token : Token} {taken : Nat}
    (h : readClass? text = some (token, taken, rest)) :
    ∃ body, text = body ++ rest ∧ taken = body.length ∧ IsClass body token ∧
      (separator ∈ body ↔ token.namesSeparator = true) := by
  have hsep : separator ≠ ']' ∧ separator ≠ '!' := by decide
  unfold readClass? at h
  split at h
  · rename_i first text
    obtain ⟨⟨inside, rest⟩, hsplit, h⟩ := Option.map_eq_some_iff.mp h
    cases h
    obtain ⟨rfl, hinside⟩ := of_splitAtBracket? hsplit
    refine ⟨'!' :: first :: (inside ++ [']']), by simp, by simp, ?_, ?_⟩
    · intro more
      simp [readClass?, splitAtBracket?_append hinside]
    · rw [Token.namesSeparator, namesSeparator_classRanges]
      simp [hsep]
  · cases h
  · rename_i first text hnot _
    obtain ⟨⟨inside, rest⟩, hsplit, h⟩ := Option.map_eq_some_iff.mp h
    cases h
    obtain ⟨rfl, hinside⟩ := of_splitAtBracket? hsplit
    refine ⟨first :: (inside ++ [']']), by simp, by simp, ?_, ?_⟩
    · intro more
      have hfirst : first ≠ '!' := by
        rintro rfl
        cases inside with
        | nil => exact hnot ']' rest rfl rfl
        | cons c inside => exact hnot c (inside ++ ']' :: rest) rfl rfl
      simp [readClass?, splitAtBracket?_append hinside, hfirst]
    · rw [Token.namesSeparator, namesSeparator_classRanges]
      simp [hsep]
  · cases h

theorem IsClass.namesSeparator {body : List Char} {token : Token} (h : IsClass body token) :
    token.namesSeparator = true ↔ separator ∈ body := by
  obtain ⟨read, hread, -, -, hseparator⟩ := exists_body (h [])
  rw [List.append_cancel_right hread]
  exact hseparator.symm

/-! ## The grammar -/

/-- The patterns in whose classes there is no separator. `fresh` says whether a `**` may come first,
as it may at the beginning of a component. -/
inductive Reads : (fresh : Bool) → List Char → Prop
  | nil {fresh} : Reads fresh []
  | anyChar {fresh rest} (h : Reads false rest) : Reads fresh ('?' :: rest)
  | anySequence {fresh rest} (hsingle : rest.head? ≠ some '*') (h : Reads false rest) :
      Reads fresh ('*' :: rest)
  | lastComponents : Reads true ['*', '*']
  | anyComponents {rest} (h : Reads true rest) : Reads true ('*' :: '*' :: separator :: rest)
  | charClass {fresh body token rest} (hclass : IsClass body token) (hsep : separator ∉ body)
      (h : Reads false rest) : Reads fresh ('[' :: (body ++ rest))
  | char {fresh c rest} (hplain : c ≠ '*' ∧ c ≠ '?' ∧ c ≠ '[')
      (h : Reads (c = separator) rest) : Reads fresh (c :: rest)

/-! ## Reading -/

/-- Whether no token names a separator that was read after those of `tokens`. -/
def Adds (tokens result : Array Token) : Prop :=
  ∀ token ∈ result.toList, token ∈ tokens.toList ∨ token.namesSeparator = false

theorem Adds.trans {tokens more result : Array Token} (h : Adds tokens more)
    (hmore : Adds more result) : Adds tokens result := by
  intro token htoken
  rcases hmore token htoken with hmem | hname
  · exact h token hmem
  · exact .inr hname

theorem adds_push (tokens : Array Token) {token : Token} (h : token.namesSeparator = false) :
    Adds tokens (tokens.push token) := by
  intro t ht
  rw [Array.toList_push, List.mem_append, List.mem_singleton] at ht
  rcases ht with ht | rfl
  · exact .inl ht
  · exact .inr h

theorem adds_pushComponents (tokens : Array Token) : Adds tokens (pushComponents tokens) := by
  unfold pushComponents
  split
  · exact fun _ ht => .inl ht
  · exact adds_push tokens rfl

/-- Such a pattern can be read, and no token is read from it that names a separator. -/
theorem Reads.exists_parseFrom {fresh : Bool} {text : List Char} (h : Reads fresh text)
    (tokens : Array Token) (previous : Option Char) (position : Nat)
    (hfresh : fresh = true → previous.all (· = separator) = true) :
    ∃ result, parseFrom tokens previous position text = .ok result ∧ Adds tokens result := by
  induction h generalizing tokens previous position with
  | nil => exact ⟨tokens, parseFrom.eq_1 .., fun _ ht => .inl ht⟩
  | anyChar h ih =>
    obtain ⟨result, hresult, hadds⟩ := ih (tokens.push .anyChar) (some '?') (position + 1) (by simp)
    exact ⟨result, by rw [parseFrom.eq_2, hresult], (adds_push tokens rfl).trans hadds⟩
  | @anySequence _ rest hsingle h ih =>
    obtain ⟨result, hresult, hadds⟩ :=
      ih (tokens.push .anySequence) (some '*') (position + 1) (by simp)
    have hstar : ∀ more, rest ≠ '*' :: more := by
      rintro more rfl
      exact hsingle rfl
    refine ⟨result, ?_, (adds_push tokens rfl).trans hadds⟩
    rw [parseFrom.eq_6 _ _ _ _ (fun _ => hstar _) hstar, hresult]
  | lastComponents =>
    refine ⟨pushComponents tokens, ?_, adds_pushComponents tokens⟩
    rw [parseFrom.eq_4, if_pos (hfresh rfl)]
  | @anyComponents rest h ih =>
    obtain ⟨result, hresult, hadds⟩ := ih (pushComponents tokens) (some separator) (position + 3)
      fun _ => by simp
    refine ⟨result, ?_, (adds_pushComponents tokens).trans hadds⟩
    rw [parseFrom.eq_5 _ _ _ _ _ (by simp [separator]), if_pos (hfresh rfl), if_pos rfl, hresult]
  | @charClass _ body token rest hclass hsep h ih =>
    have hname : token.namesSeparator = false := by
      rw [← Bool.not_eq_true, hclass.namesSeparator]
      exact hsep
    obtain ⟨result, hresult, hadds⟩ :=
      ih (tokens.push token) (some ']') (position + body.length + 1) (by simp)
    refine ⟨result, ?_, (adds_push tokens hname).trans hadds⟩
    rw [parseFrom.eq_7]
    split
    · rename_i heq
      rw [hclass rest] at heq
      cases heq
      exact hresult
    · rename_i heq
      rw [hclass rest] at heq
      cases heq
  | @char _ c rest hplain h ih =>
    obtain ⟨hstar, hquestion, hbracket⟩ := hplain
    obtain ⟨result, hresult, hadds⟩ := ih (tokens.push (.char c)) (some c) (position + 1)
      fun hc => hc
    refine ⟨result, ?_, (adds_push tokens rfl).trans hadds⟩
    rw [parseFrom.eq_8 _ _ _ _ _ hquestion (fun _ he _ => hstar he) (fun _ he _ => hstar he) hstar
      hbracket, hresult]

/-- What can be read is such a pattern if no class that names a separator was read from it. -/
theorem reads_of_parseFrom {tokens result : Array Token} {previous : Option Char} {position : Nat}
    {text : List Char} (h : parseFrom tokens previous position text = .ok result)
    (hclasses : ∀ token ∈ result.toList, token.namesSeparator = true → separator ∉ text) :
    Reads (previous.all (· = separator)) text := by
  have hrest : ∀ (front : List Char) {rest : List Char},
      (∀ token ∈ result.toList, token.namesSeparator = true → separator ∉ front ++ rest) →
      ∀ token ∈ result.toList, token.namesSeparator = true → separator ∉ rest :=
    fun _ _ h token htoken hname hmem => h token htoken hname (List.mem_append_right _ hmem)
  fun_induction parseFrom tokens previous position text with
  | case1 => exact .nil
  | case2 _ _ _ _ ih => exact .anyChar (ih h (hrest ['?'] hclasses))
  | case3 | case6 | case7 | case10 => cases h
  | case4 _ _ _ hfresh =>
    rw [hfresh]
    exact .lastComponents
  | case5 _ _ _ hfresh _ _ ih =>
    rw [hfresh]
    exact .anyComponents (ih h (hrest ['*', '*', separator] hclasses))
  | case8 _ _ _ rest _ hstar ih =>
    refine .anySequence ?_ (ih h (hrest ['*'] hclasses))
    intro hhead
    obtain ⟨more, rfl⟩ := List.head?_eq_some_iff.mp hhead
    exact hstar more rfl
  | case9 _ _ _ _ token _ rest hread ih =>
    obtain ⟨body, rfl, -, hclass, hseparator⟩ := exists_body hread
    have hmem : token ∈ result.toList := (prefix_parseFrom h).subset (by simp)
    have hbody : separator ∉ body := by
      intro hbody
      refine hclasses token hmem (hseparator.mp hbody) ?_
      exact List.mem_cons_of_mem _ (List.mem_append_left _ hbody)
    exact .charClass hclass hbody (ih h (hrest ('[' :: body) hclasses))
  | case11 _ _ _ c _ hquestion _ _ hstar hbracket ih =>
    exact .char ⟨hstar, hquestion, hbracket⟩ (ih h (hrest [c] hclasses))

theorem Reads.exists_parse {text : String} (h : Reads true text.toList) :
    ∃ pattern, parse text = .ok pattern ∧ pattern.namesSeparator = false := by
  obtain ⟨result, hresult, hadds⟩ := h.exists_parseFrom #[] none 0 fun _ => rfl
  refine ⟨⟨result.toList⟩, by rw [parse, hresult]; rfl, ?_⟩
  rw [namesSeparator, List.any_eq_false]
  intro token htoken
  rw [(hadds token htoken).resolve_left List.not_mem_nil]
  exact Bool.false_ne_true

theorem reads_of_parse {text : String} {pattern : Pattern} (h : parse text = .ok pattern)
    (hclasses : ∀ token ∈ pattern.tokens, token.namesSeparator = true → separator ∉ text.toList) :
    Reads true text.toList := by
  obtain ⟨result, hresult, rfl⟩ := exists_of_parse h
  exact reads_of_parseFrom hresult hclasses

/-- Of the texts that can be read, those are such patterns that are read without naming a separator
in a class. -/
theorem reads_iff_of_parse {text : String} {pattern : Pattern} (h : parse text = .ok pattern) :
    Reads true text.toList ↔ pattern.namesSeparator = false := by
  constructor
  · intro hreads
    obtain ⟨same, hsame, hnames⟩ := hreads.exists_parse
    rw [h] at hsame
    cases hsame
    exact hnames
  · intro hnames
    refine reads_of_parse h fun token htoken hname => ?_
    exact absurd hname (List.any_eq_false.mp hnames token htoken)

/-- A text without separators is such a pattern if it is one at all. -/
theorem reads_iff_of_not_mem {text : String} (h : separator ∉ text.toList) :
    Reads true text.toList ↔ ∃ pattern, parse text = .ok pattern := by
  constructor
  · intro hreads
    obtain ⟨pattern, hpattern, -⟩ := hreads.exists_parse
    exact ⟨pattern, hpattern⟩
  · rintro ⟨pattern, hpattern⟩
    exact reads_of_parse hpattern fun _ _ _ => h

/-! ## Parts -/

/-- After a separator a pattern goes on as one that begins there. -/
theorem Reads.append {fresh : Bool} {front rest : List Char} (hfront : Reads fresh front)
    (hsep : separator ∉ front) (hrest : Reads true rest) :
    Reads fresh (front ++ separator :: rest) := by
  induction hfront with
  | nil => exact .char (by decide) (by simpa using hrest)
  | anyChar h ih => exact .anyChar (ih (List.not_mem_of_not_mem_cons hsep))
  | @anySequence _ front hsingle h ih =>
    refine .anySequence ?_ (ih (List.not_mem_of_not_mem_cons hsep))
    cases front with
    | nil => simp [separator]
    | cons c front => exact hsingle
  | lastComponents => exact .anyComponents hrest
  | anyComponents => exact absurd (by simp) hsep
  | @charClass _ body _ front hclass hbody h ih =>
    rw [List.cons_append, List.append_assoc]
    refine .charClass hclass hbody (ih fun hmem => hsep ?_)
    exact List.mem_cons_of_mem _ (List.mem_append_right _ hmem)
  | char hplain h ih => exact .char hplain (ih (List.not_mem_of_not_mem_cons hsep))

/-- No token of a pattern goes over a separator, so that both sides of it are patterns. -/
theorem Reads.of_append {fresh : Bool} {front rest : List Char} (hsep : separator ∉ front)
    (h : Reads fresh (front ++ separator :: rest)) : Reads fresh front ∧ Reads true rest := by
  generalize htext : front ++ separator :: rest = text at h
  induction h generalizing front with
  | nil => exact absurd htext (by simp)
  | anyChar h ih =>
    rcases List.append_eq_cons_iff.mp htext with ⟨rfl, hc⟩ | ⟨front, rfl, hmore⟩
    · cases hc
    · obtain ⟨hfront, hrest⟩ := ih (List.not_mem_of_not_mem_cons hsep) hmore.symm
      exact ⟨.anyChar hfront, hrest⟩
  | anySequence hsingle h ih =>
    rcases List.append_eq_cons_iff.mp htext with ⟨rfl, hc⟩ | ⟨front, rfl, rfl⟩
    · cases hc
    · obtain ⟨hfront, hrest⟩ := ih (List.not_mem_of_not_mem_cons hsep) rfl
      refine ⟨.anySequence ?_ hfront, hrest⟩
      cases front with
      | nil => nofun
      | cons c front => exact hsingle
  | lastComponents =>
    have hmem : separator ∈ ['*', '*'] := by simp [← htext]
    exact absurd hmem (by decide)
  | anyComponents h ih =>
    rcases front with _ | ⟨a, _ | ⟨b, _ | ⟨c, front⟩⟩⟩
    · exact absurd (List.cons.inj htext).1 (by decide)
    · exact absurd (List.cons.inj (List.cons.inj htext).2).1 (by decide)
    · cases htext
      exact ⟨.lastComponents, h⟩
    · cases htext
      exact absurd (by simp) hsep
  | @charClass _ body _ more hclass hbody h ih =>
    rcases List.append_eq_cons_iff.mp htext with ⟨rfl, hc⟩ | ⟨front, rfl, hparts⟩
    · cases hc
    · -- a class that begins before the separator ends before it
      obtain ⟨left, rfl, hmore⟩ : ∃ left, front = body ++ left ∧
          left ++ separator :: rest = more := by
        rcases List.append_eq_append_iff.mp hparts with
          ⟨left, hfront, hmore⟩ | ⟨right, hright, hmore⟩
        · exact ⟨left, hfront, hmore.symm⟩
        · cases right with
          | nil => exact ⟨[], by simpa using hright.symm, hmore⟩
          | cons c right =>
            rw [hright, ← (List.cons.inj hmore).1] at hbody
            exact absurd (by simp) hbody
      have hfresh : separator ∉ left := fun hmem => hsep (by simp [hmem])
      obtain ⟨hfront, hrest⟩ := ih hfresh hmore
      exact ⟨.charClass hclass hbody hfront, hrest⟩
  | char hplain h ih =>
    rcases List.append_eq_cons_iff.mp htext with ⟨rfl, hc⟩ | ⟨front, rfl, hmore⟩
    · cases hc
      exact ⟨.nil, by simpa using h⟩
    · obtain ⟨hfront, hrest⟩ := ih (List.not_mem_of_not_mem_cons hsep) hmore.symm
      exact ⟨.char hplain hfront, hrest⟩

theorem reads_append_iff {fresh : Bool} {front rest : List Char} (hsep : separator ∉ front) :
    Reads fresh (front ++ separator :: rest) ↔ Reads fresh front ∧ Reads true rest :=
  ⟨Reads.of_append hsep, fun ⟨hfront, hrest⟩ => hfront.append hsep hrest⟩

theorem separator_mem_lossy {path : Path} :
    separator ∈ path.lossy.toList ↔ Path.separator ∈ path := by
  rw [RawText.lossy, String.toList_ofList, List.mem_map]
  constructor
  · rintro ⟨g, hg, hshown⟩
    cases g with
    | char c =>
      cases hshown
      exact hg
    | stray bytes =>
      have hne : '\uFFFD' ≠ separator := by decide
      exact absurd hshown hne
  · intro hmem
    exact ⟨Path.separator, hmem, rfl⟩

theorem toList_lossy_append (front rest : Path) :
    (RawText.lossy (front ++ Path.separator :: rest)).toList =
      (RawText.lossy front).toList ++ separator :: (RawText.lossy rest).toList := by
  simp [RawText.lossy, Path.separator, Glyph.shown, separator]

/-- A text is such a pattern if each of its parts is one. -/
theorem reads_iff_segments (path : Path) :
    Reads true path.lossy.toList ↔ ∀ s ∈ path.segments, Reads true s.lossy.toList := by
  induction hlength : path.length using Nat.strongRecOn generalizing path with
  | ind n ih =>
    by_cases hsep : Path.separator ∈ path
    · obtain ⟨front, rest, rfl, hfront⟩ := List.eq_append_cons_of_mem hsep
      have hrest := ih rest.length (by simp [← hlength]; omega) rest rfl
      rw [toList_lossy_append, reads_append_iff (mt separator_mem_lossy.mp hfront), hrest,
        Path.segments_append, Path.segments_of_not_mem hfront]
      simp
    · rw [Path.segments_of_not_mem hsep]
      simp

/-- The empty part after a separator at the end does not count. -/
theorem reads_iff_pieces (path : Path) :
    Reads true path.lossy.toList ↔ ∀ s ∈ path.pieces, Reads true s.lossy.toList := by
  rw [reads_iff_segments]
  have hempty : Reads true (RawText.lossy []).toList := .nil
  rcases path.segments_eq_pieces with h | h
  · rw [h]
  · rw [h]
    simp [or_imp, forall_and, hempty]

/-- Nor does a separator at the beginning. -/
theorem reads_iff_tail {path : Path} (h : path.isAbsolute = true) :
    Reads true path.lossy.toList ↔ Reads true (RawText.lossy path.tail).toList := by
  obtain ⟨rest, rfl⟩ : ∃ rest, path = Path.separator :: rest :=
    List.head?_eq_some_iff.mp (of_decide_eq_true h)
  have hlossy : (RawText.lossy (Path.separator :: rest)).toList =
      [] ++ separator :: (RawText.lossy rest).toList := toList_lossy_append [] rest
  rw [hlossy, reads_append_iff List.not_mem_nil]
  exact and_iff_right .nil

end Pattern

/-! ## Expanding -/

open Pattern

theorem exists_mapM_ok_iff {ε α β : Type} {f : α → Except ε β} {xs : List α} :
    (∃ ys, xs.mapM f = .ok ys) ↔ ∀ x ∈ xs, ∃ y, f x = .ok y := by
  induction xs with
  | nil => simp [List.mapM_nil, pure, Except.pure]
  | cons x xs ih =>
    rw [List.forall_mem_cons, ← ih, List.mapM_cons]
    cases f x with
    | error e => simp [bind, Except.bind]
    | ok y => cases xs.mapM f <;> simp [bind, Except.bind, pure, Except.pure]

/-- A pattern can be expanded if no separator stands in a class of it. -/
theorem exists_expand_iff (fs : FileSystem) {pattern : Path} (htext : pattern.IsText) :
    (∃ paths, expand fs pattern.lossy = .ok paths) ↔ Reads true pattern.lossy.toList := by
  obtain ⟨rest, hdef⟩ :
      ∃ rest : Path, rest = if pattern.isAbsolute then pattern.tail else pattern := ⟨_, rfl⟩
  have hrest : Reads true pattern.lossy.toList ↔ Reads true rest.lossy.toList := by
    by_cases habsolute : pattern.isAbsolute = true
    · rw [hdef, if_pos habsolute, reads_iff_tail habsolute]
    · rw [hdef, if_neg habsolute]
  have hparts : (∃ patterns, rest.pieces.mapM (fun part => Pattern.parse part.lossy) =
      .ok patterns) ↔ Reads true pattern.lossy.toList := by
    rw [exists_mapM_ok_iff, hrest, reads_iff_pieces]
    refine forall₂_congr fun s hs => ?_
    exact (reads_iff_of_not_mem (mt separator_mem_lossy.mp (Path.mem_pieces hs).1)).symm
  have hwhole : Reads true pattern.lossy.toList →
      ∃ whole, Pattern.parse pattern.lossy = .ok whole := by
    intro hreads
    obtain ⟨whole, hparse, -⟩ := hreads.exists_parse
    exact ⟨whole, hparse⟩
  rw [← hparts] at hwhole ⊢
  unfold expand
  simp only [htext.ofString_lossy, parts_eq_pieces, ← hdef]
  cases hmap : rest.pieces.mapM fun part => parse (RawText.lossy part) with
  | error e => cases parse pattern.lossy <;> simp [bind, Except.bind]
  | ok patterns =>
    obtain ⟨whole, hparse⟩ := hwhole ⟨patterns, hmap⟩
    simp [hparse, bind, Except.bind, pure, Except.pure]

/-- What is put in front of a pattern without wildcards and classes changes nothing of this. -/
theorem reads_join_iff {base : Path} (hbase : IsVerbatim base) (pattern : Path) :
    Reads true (base.join pattern).lossy.toList ↔ Reads true pattern.lossy.toList := by
  by_cases habsolute : pattern.isAbsolute = true
  · rw [Path.join, if_pos habsolute]
  · rw [Bool.not_eq_true] at habsolute
    have hfront : ∀ s ∈ base.pieces, Reads true s.lossy.toList := by
      intro s hs
      refine (reads_iff_of_parse (parse_of_plain (hbase.of_mem_pieces hs))).mpr ?_
      simp [namesSeparator, Token.namesSeparator]
    rw [reads_iff_segments, reads_iff_segments pattern, Path.segments_join base habsolute,
      List.forall_mem_append]
    exact and_iff_right hfront

end MessageHarvest.Glob
