import Mathlib.Data.List.Infix

/-!
# HTML escaping of result names

`Search.escape` replaces the four characters `" & < >` of a name by entities;
`Search.escapeForRtl` then marks punctuation with `&lrm;` for the right-to-left cut-off of long
names. Its second replacement, `/(\)|&gt;|&amp;|\/)/g`, runs over text that `escape` has already
rewritten, so it must find `&gt;` and `&amp;` only where `escape` wrote them.

Both functions act on a string one position at a time (`escapeForRtl_eq_flatMap`): the output is
the concatenation of what each input character becomes. From that, `escape_wellFormed` shows that
neither output holds `<`, `>` or `"`, that every `&` starts an entity, that undoing the entities
gives back the name, and that deleting the `&lrm;` marks from `escapeForRtl s` gives `escape s`.

Strings are lists of characters; every pattern and replacement is ASCII, so a JavaScript string
and the list of its characters are rewritten alike.
-/

set_option autoImplicit false

namespace DocSearch

/-- The mark `escapeForRtl` inserts. -/
def lrm : List Char := "&lrm;".toList

/-- The replacement `escape` makes for one character. -/
def escapeChar (c : Char) : List Char :=
  if c = '"' then "&quot;".toList
  else if c = '&' then "&amp;".toList
  else if c = '<' then "&lt;".toList
  else if c = '>' then "&gt;".toList
  else [c]

/-- `Search.escape(name)`: `name.replace(/[\"&<>]/g, …)`. -/
def escape (name : List Char) : List Char := name.flatMap escapeChar

/-- The first replacement of `escapeForRtl`, `.replace(/[:=]/g, '&lrm;$&')`. -/
def markColons (s : List Char) : List Char :=
  s.flatMap fun c => if c = ':' ∨ c = '=' then lrm ++ [c] else [c]

/-- The second replacement of `escapeForRtl`, `.replace(/(\)|&gt;|&amp;|\/)/g, '&lrm;$&&lrm;')`:
a left-to-right scan that wraps each match in `&lrm;` and resumes after it. -/
def markParens : List Char → List Char
  | ')' :: s => lrm ++ [')'] ++ lrm ++ markParens s
  | '&' :: 'g' :: 't' :: ';' :: s => lrm ++ "&gt;".toList ++ lrm ++ markParens s
  | '&' :: 'a' :: 'm' :: 'p' :: ';' :: s => lrm ++ "&amp;".toList ++ lrm ++ markParens s
  | '/' :: s => lrm ++ ['/'] ++ lrm ++ markParens s
  | c :: s => c :: markParens s
  | [] => []

/-- `Search.escapeForRtl(name)`. -/
def escapeForRtl (name : List Char) : List Char := markParens (markColons (escape name))

/-! ## Specification -/

/-- The four entities `escape` writes. -/
def entities : List (List Char) :=
  ["&quot;".toList, "&amp;".toList, "&lt;".toList, "&gt;".toList]

/-- Replace each of the four entities by its character, scanning left to right. -/
def unescape : List Char → List Char
  | '&' :: 'q' :: 'u' :: 'o' :: 't' :: ';' :: s => '"' :: unescape s
  | '&' :: 'a' :: 'm' :: 'p' :: ';' :: s => '&' :: unescape s
  | '&' :: 'l' :: 't' :: ';' :: s => '<' :: unescape s
  | '&' :: 'g' :: 't' :: ';' :: s => '>' :: unescape s
  | c :: s => c :: unescape s
  | [] => []

/-- Delete every occurrence of `&lrm;`, scanning left to right. -/
def deleteLrm : List Char → List Char
  | '&' :: 'l' :: 'r' :: 'm' :: ';' :: s => deleteLrm s
  | c :: s => c :: deleteLrm s
  | [] => []

/-- Every `&` of a string starts one of the strings `es`, suffix by suffix. -/
def AmpsStart (es : List (List Char)) : List Char → Prop
  | [] => True
  | c :: t => (c = '&' → ∃ e ∈ es, e <+: c :: t) ∧ AmpsStart es t

instance decAmpsStart (es : List (List Char)) : (t : List Char) → Decidable (AmpsStart es t)
  | [] => isTrue trivial
  | _ :: t => @instDecidableAnd _ _ inferInstance (decAmpsStart es t)

theorem AmpsStart.append {es : List (List Char)} :
    ∀ {a b : List Char}, AmpsStart es a → AmpsStart es b → AmpsStart es (a ++ b)
  | [], _, _, hb => hb
  | _ :: _, _, ⟨hc, ha⟩, hb => ⟨fun h => (hc h).imp fun _ ⟨he, hp⟩ =>
      ⟨he, hp.trans (List.prefix_append _ _)⟩, AmpsStart.append ha hb⟩

theorem AmpsStart.flatMap {es : List (List Char)} {f : Char → List Char}
    (hf : ∀ c, AmpsStart es (f c)) : ∀ s : List Char, AmpsStart es (s.flatMap f)
  | [] => trivial
  | c :: s => (hf c).append (AmpsStart.flatMap hf s)

/-- `AmpsStart` read position by position. -/
theorem ampsStart_iff {es : List (List Char)} :
    ∀ {t : List Char}, AmpsStart es t ↔ ∀ i, t[i]? = some '&' → ∃ e ∈ es, e <+: t.drop i
  | [] => by simp [AmpsStart]
  | c :: t => by
    rw [AmpsStart, ampsStart_iff]
    constructor
    · rintro ⟨hc, ht⟩ (_ | i) hi
      · exact hc (by simpa using hi)
      · exact ht i (by simpa using hi)
    · intro h
      exact ⟨fun hc => h 0 (by simp [hc]), fun i hi => h (i + 1) (by simpa using hi)⟩

/-! ## One character at a time -/

/-- The characters either function rewrites. -/
def special : List Char := ['"', '&', '<', '>', ':', '=', ')', '/']

/-- What `escapeForRtl` makes of one character. -/
def rtlChar (c : Char) : List Char :=
  if c = ':' ∨ c = '=' then lrm ++ [c]
  else if c = ')' ∨ c = '/' then lrm ++ [c] ++ lrm
  else if c = '&' ∨ c = '>' then lrm ++ escapeChar c ++ lrm
  else escapeChar c

section Plain

variable {c : Char} (h : c ∉ special)
include h

theorem escapeChar_of_not_special : escapeChar c = [c] := by
  simp only [special, List.mem_cons, List.mem_singleton, not_or] at h
  simp [escapeChar, h]

theorem rtlChar_of_not_special : rtlChar c = [c] := by
  have hc := escapeChar_of_not_special h
  simp only [special, List.mem_cons, List.mem_singleton, not_or] at h
  simp [rtlChar, h, hc]

/-! The three scanners below take their last branch on a plain character: its equation holds
when no earlier pattern matches, which a character outside `special` rules out at its head. -/

theorem markParens_cons_of_not_special (rest : List Char) :
    markParens (c :: rest) = c :: markParens rest := by
  obtain ⟨-, hamp, -, -, -, -, hparen, hslash⟩ :
      c ≠ '"' ∧ c ≠ '&' ∧ c ≠ '<' ∧ c ≠ '>' ∧ c ≠ ':' ∧ c ≠ '=' ∧ c ≠ ')' ∧ c ≠ '/' := by
    simpa [special] using h
  exact markParens.eq_5 c rest hparen (fun _ h _ => hamp h) (fun _ h _ => hamp h) hslash

theorem unescape_cons_of_not_special (rest : List Char) :
    unescape (c :: rest) = c :: unescape rest := by
  have hamp : c ≠ '&' := fun hc => h (hc ▸ by decide)
  exact unescape.eq_5 c rest (fun _ h _ => hamp h) (fun _ h _ => hamp h) (fun _ h _ => hamp h)
    (fun _ h _ => hamp h)

theorem deleteLrm_cons_of_not_special (rest : List Char) :
    deleteLrm (c :: rest) = c :: deleteLrm rest := by
  simp only [special, List.mem_cons, List.mem_singleton, not_or] at h
  exact deleteLrm.eq_2 c rest (by simp_all)

end Plain

/-- Each character of `special`, by name. -/
theorem mem_special {c : Char} (h : c ∈ special) :
    c = '"' ∨ c = '&' ∨ c = '<' ∨ c = '>' ∨ c = ':' ∨ c = '=' ∨ c = ')' ∨ c = '/' := by
  simpa [special] using h

theorem markParens_markColons_escapeChar (c : Char) (rest : List Char) :
    markParens (markColons (escapeChar c) ++ rest) = rtlChar c ++ markParens rest := by
  by_cases h : c ∈ special
  · rcases mem_special h with rfl | rfl | rfl | rfl | rfl | rfl | rfl | rfl <;> rfl
  · have hm : markColons (escapeChar c) = [c] := by
      simp only [special, List.mem_cons, List.mem_singleton, not_or] at h
      simp [markColons, escapeChar, h]
    rw [hm, rtlChar_of_not_special h, List.singleton_append, markParens_cons_of_not_special h]
    rfl

theorem unescape_escapeChar_append (c : Char) (rest : List Char) :
    unescape (escapeChar c ++ rest) = c :: unescape rest := by
  by_cases h : c ∈ special
  · rcases mem_special h with rfl | rfl | rfl | rfl | rfl | rfl | rfl | rfl <;> rfl
  · rw [escapeChar_of_not_special h, List.singleton_append, unescape_cons_of_not_special h]

theorem deleteLrm_rtlChar_append (c : Char) (rest : List Char) :
    deleteLrm (rtlChar c ++ rest) = escapeChar c ++ deleteLrm rest := by
  by_cases h : c ∈ special
  · rcases mem_special h with rfl | rfl | rfl | rfl | rfl | rfl | rfl | rfl <;> rfl
  · rw [rtlChar_of_not_special h, escapeChar_of_not_special h, List.singleton_append,
      deleteLrm_cons_of_not_special h]
    rfl

/-- What one character becomes holds no `<`, `>` or `"`, and its every `&` starts an entity. -/
theorem escapeChar_rtlChar_clean (c : Char) :
    (∀ x ∈ escapeChar c, x ≠ '<' ∧ x ≠ '>' ∧ x ≠ '"') ∧ AmpsStart entities (escapeChar c) ∧
      (∀ x ∈ rtlChar c, x ≠ '<' ∧ x ≠ '>' ∧ x ≠ '"') ∧ AmpsStart (lrm :: entities) (rtlChar c) := by
  by_cases h : c ∈ special
  · rcases mem_special h with rfl | rfl | rfl | rfl | rfl | rfl | rfl | rfl <;> decide
  · rw [escapeChar_of_not_special h, rtlChar_of_not_special h]
    simp only [special, List.mem_cons, List.mem_singleton, not_or] at h
    simp [AmpsStart, h]

/-- `escapeForRtl` rewrites a string one character at a time. -/
theorem escapeForRtl_eq_flatMap (s : List Char) : escapeForRtl s = s.flatMap rtlChar := by
  induction s with
  | nil => rfl
  | cons c s ih =>
    have e : escapeForRtl (c :: s) =
        markParens (markColons (escapeChar c) ++ markColons (escape s)) := by
      simp only [escapeForRtl, escape, markColons, List.flatMap_cons, List.flatMap_append]
    rw [e, markParens_markColons_escapeChar, ← escapeForRtl, ih, List.flatMap_cons]

/-! ## Whole strings -/

theorem mem_escape {s : List Char} {x : Char} (h : x ∈ escape s) :
    x ≠ '<' ∧ x ≠ '>' ∧ x ≠ '"' := by
  obtain ⟨c, -, hx⟩ := List.mem_flatMap.mp h
  exact (escapeChar_rtlChar_clean c).1 x hx

theorem mem_escapeForRtl {s : List Char} {x : Char} (h : x ∈ escapeForRtl s) :
    x ≠ '<' ∧ x ≠ '>' ∧ x ≠ '"' := by
  rw [escapeForRtl_eq_flatMap] at h
  obtain ⟨c, -, hx⟩ := List.mem_flatMap.mp h
  exact (escapeChar_rtlChar_clean c).2.2.1 x hx

theorem unescape_escape : ∀ s : List Char, unescape (escape s) = s
  | [] => rfl
  | c :: s => by
    rw [escape, List.flatMap_cons, unescape_escapeChar_append, ← escape, unescape_escape s]

theorem deleteLrm_flatMap_rtlChar : ∀ s : List Char, deleteLrm (s.flatMap rtlChar) = escape s
  | [] => rfl
  | c :: s => by
    rw [List.flatMap_cons, deleteLrm_rtlChar_append, deleteLrm_flatMap_rtlChar s, escape, escape,
      List.flatMap_cons]

/-- **`escape` and `escapeForRtl` write well-formed entity text.** Neither output holds `<`, `>`
or `"`; every `&` in `escape s` starts one of its four entities, and undoing them gives `s`; every
`&` in `escapeForRtl s` starts one of them or `&lrm;`, and deleting the marks gives `escape s`. -/
theorem escape_wellFormed (s : List Char) :
    ('<' ∉ escape s ∧ '>' ∉ escape s ∧ '"' ∉ escape s ∧
      (∀ i, (escape s)[i]? = some '&' → ∃ e ∈ entities, e <+: (escape s).drop i) ∧
      unescape (escape s) = s) ∧
    ('<' ∉ escapeForRtl s ∧ '>' ∉ escapeForRtl s ∧ '"' ∉ escapeForRtl s ∧
      (∀ i, (escapeForRtl s)[i]? = some '&' →
        ∃ e ∈ lrm :: entities, e <+: (escapeForRtl s).drop i) ∧
      deleteLrm (escapeForRtl s) = escape s) :=
  ⟨⟨fun h => (mem_escape h).1 rfl, fun h => (mem_escape h).2.1 rfl,
      fun h => (mem_escape h).2.2 rfl,
      ampsStart_iff.mp (AmpsStart.flatMap (fun c => (escapeChar_rtlChar_clean c).2.1) s),
      unescape_escape s⟩,
    ⟨fun h => (mem_escapeForRtl h).1 rfl, fun h => (mem_escapeForRtl h).2.1 rfl,
      fun h => (mem_escapeForRtl h).2.2 rfl,
      escapeForRtl_eq_flatMap s ▸
        ampsStart_iff.mp (AmpsStart.flatMap (fun c => (escapeChar_rtlChar_clean c).2.2.2) s),
      by rw [escapeForRtl_eq_flatMap, deleteLrm_flatMap_rtlChar]⟩⟩

end DocSearch
