import Nivren.Registry.Documents

/-! Text literals.

The lexer decodes the escapes of a `text` literal and keeps track of its holes; the parser finds the
holes again in the decoded text. The two agree on a literal in which no escape spells a brace, and
in a hole no escape spells a quote and no brace is doubled.
-/

namespace Nivren

namespace TextHoles

def quote : Char := '\x22'

/-- The character an escape stands for and what follows the escape. -/
def escape : Char → List Char → Option (Char × List Char)
  | 'n', rest => some ('\n', rest)
  | 'r', rest => some ('\r', rest)
  | 't', rest => some ('\t', rest)
  | '\x22', rest => some (quote, rest)
  | '\\', rest => some ('\\', rest)
  | 'u', '{' :: rest =>
    let digits := (rest.takeWhile Trust.isHexDigit).take 7
    let scalar := digits.foldl (fun value c => 16 * value + (Trust.hexValue c).getD 0) 0
    match rest.drop digits.length with
    | '}' :: rest =>
      if digits ≠ [] ∧ digits.length ≤ 6 ∧ scalar.isValidChar then some (.ofNat scalar, rest)
      else none
    | _ => none
  | _, _ => none

/-- A string inside a hole, from behind its first quote. -/
def nested : List Char → Option (List Char × List Char)
  | [] => none
  | '\\' :: c :: rest => (nested rest).map fun (text, rest) => ('\\' :: c :: text, rest)
  | c :: rest =>
    if c = quote then some ([quote], rest)
    else (nested rest).map fun (text, rest) => (c :: text, rest)

variable {after : List Char}

theorem escape_length {c v : Char} {rest : List Char} (h : escape c rest = some (v, after)) :
    after.length ≤ rest.length := by
  unfold escape at h
  split at h
  case h_6 more =>
    dsimp only at h
    split at h
    next tail ht =>
      split at h
      · cases h
        have hl := congrArg List.length ht
        simp only [List.length_drop, List.length_cons] at hl ⊢
        omega
      · cases h
    · cases h
  case h_7 => cases h
  all_goals
    cases h
    exact Nat.le_refl _

variable {source : List Char}

theorem nested_length {text : List Char} (h : nested source = some (text, after)) :
    after.length < source.length := by
  fun_induction nested source generalizing text after with
  | case1 => cases h
  | case3 rest =>
    cases h
    simp
  | case2 c rest ih | case4 c rest hq hc ih =>
    obtain ⟨⟨more, tail⟩, hn, he⟩ := Option.map_eq_some_iff.mp h
    obtain ⟨-, rfl⟩ := Prod.mk.inj he
    have hl := ih hn
    simp only [List.length_cons]
    omega

/-- What a character of a text is: a brace that opens or closes a hole, the character of an escape,
one brace of a doubled one, or anything else. -/
inductive Mark
  | opens | closes | escaped | doubled | plain

/-- The mark that the parser can tell. -/
def Mark.bare : Mark → Mark
  | .opens => .opens
  | .closes => .closes
  | _ => .plain

/-- The text of a literal with the holes the lexer sees in it; `none` when the literal is refused. -/
def scan (depth : ℕ) (source : List Char) : Option (List (Char × Mark)) :=
  match source with
  | [] => none
  | c :: rest =>
    if c = quote ∧ depth = 0 then some []
    else if c = '\\' then
      match rest with
      | [] => none
      | e :: rest =>
        match _h : escape e rest with
        | none => none
        | some (v, after) => (scan depth after).map ((v, .escaped) :: ·)
    else if c = '{' then
      if rest.head? = some '{' then
        (scan depth rest.tail).map fun text => ('{', .doubled) :: ('{', .doubled) :: text
      else (scan (depth + 1) rest).map (('{', if depth = 0 then .opens else .plain) :: ·)
    else if c = '}' ∧ 0 < depth then
      (scan (depth - 1) rest).map (('}', if depth = 1 then .closes else .plain) :: ·)
    else if c = quote then
      match _h : nested rest with
      | none => none
      | some (text, after) =>
        (scan depth after).map ((quote, .plain) :: text.map (·, .plain) ++ ·)
    else (scan depth rest).map ((c, .plain) :: ·)
termination_by source.length
decreasing_by
  all_goals simp only [List.length_cons, List.length_tail]
  · have hl := escape_length _h
    omega
  all_goals first
  | omega
  | have hl := nested_length _h
    omega

/-- Where `text_literal` is: outside the holes, or in one at a depth of braces. -/
inductive Place
  | outside
  | hole (depth : ℕ) (inString escaped : Bool)

/-- The holes that `text_literal` finds in a text; `none` when it refuses the text. -/
def holes : Place → List Char → Option (List Mark)
  | .outside, [] => some []
  | .outside, '{' :: '{' :: rest => (holes .outside rest).map fun marks => .plain :: .plain :: marks
  | .outside, '}' :: '}' :: rest => (holes .outside rest).map fun marks => .plain :: .plain :: marks
  | .outside, c :: rest =>
    if c = '}' then none
    else if c = '{' then (holes (.hole 1 false false) rest).map (.opens :: ·)
    else (holes .outside rest).map (.plain :: ·)
  | .hole .., [] => none
  | .hole depth inString escaped, c :: rest =>
    if inString then
      (holes (.hole depth (escaped || c != quote) (!escaped && c == '\\')) rest).map (.plain :: ·)
    else if c = quote then (holes (.hole depth true escaped) rest).map (.plain :: ·)
    else if c = '{' then (holes (.hole (depth + 1) false escaped) rest).map (.plain :: ·)
    else if c = '}' then
      if depth = 1 then (holes .outside rest).map (.closes :: ·)
      else (holes (.hole (depth - 1) false escaped) rest).map (.plain :: ·)
    else (holes (.hole depth false escaped) rest).map (.plain :: ·)

/-- No escape spells a brace, and in a hole no escape spells a quote and no brace is doubled. -/
def tame : Bool → List (Char × Mark) → Prop
  | _, [] => True
  | hole, (c, mark) :: rest =>
    match mark with
    | .opens => tame true rest
    | .closes => tame false rest
    | .escaped => c ≠ '{' ∧ c ≠ '}' ∧ (hole = true → c ≠ quote) ∧ tame hole rest
    | .doubled => hole = false ∧ tame hole rest
    | .plain => tame hole rest

def place : ℕ → Place
  | 0 => .outside
  | depth + 1 => .hole (depth + 1) false false

variable {c : Char} {chars : List Char}

theorem holes_plain (ho : c ≠ '{') (hc : c ≠ '}') :
    holes .outside (c :: chars) = (holes .outside chars).map (.plain :: ·) := by
  rw [holes, if_neg hc, if_neg ho]
  all_goals simp_all

theorem holes_open (h : chars.head? ≠ some '{') :
    holes .outside ('{' :: chars) = (holes (.hole 1 false false) chars).map (.opens :: ·) := by
  rw [holes, if_neg (by decide), if_pos rfl]
  · rintro rest - rfl
    exact h rfl
  · simp

theorem holes_close (h : chars.head? ≠ some '}') : holes .outside ('}' :: chars) = none := by
  rw [holes, if_pos rfl]
  · simp
  · rintro rest - rfl
    exact h rfl

theorem holes_nested {text : List Char} (h : nested source = some (text, after)) (depth : ℕ) :
    holes (.hole depth true false) (text ++ chars) =
      (holes (.hole depth false false) chars).map (text.map (fun _ => .plain) ++ ·) := by
  fun_induction nested source generalizing text after with
  | case1 => cases h
  | case2 c rest ih =>
    obtain ⟨⟨more, tail⟩, hn, he⟩ := Option.map_eq_some_iff.mp h
    obtain ⟨rfl, -⟩ := Prod.mk.inj he
    simp [holes, ih hn, quote, Function.comp_def]
  | case3 rest =>
    cases h
    simp [holes, quote]
  | case4 c rest hq hc ih =>
    obtain ⟨⟨more, tail⟩, hn, he⟩ := Option.map_eq_some_iff.mp h
    obtain ⟨rfl, -⟩ := Prod.mk.inj he
    have hb : c ≠ '\\' := by
      rintro rfl
      cases rest with
      | nil => cases hn
      | cons d rest => exact hq d rest rfl rfl
    have hd : (c != quote) = true ∧ (c == '\\') = false := by simp [hc, hb]
    simp [holes, hd.1, hd.2, ih hn, Function.comp_def]

/-- What the parser finds in the text of a literal is what the lexer marked, also behind a `}`. -/
structure Agrees (depth : ℕ) (text : List (Char × Mark)) : Prop where
  here : ∀ {marks}, holes (place depth) (text.map Prod.fst) = some marks →
    marks = text.map (·.2.bare)
  behind : depth = 0 → ∀ {marks}, holes .outside ('}' :: text.map Prod.fst) = some marks →
    marks = .plain :: text.map (·.2.bare)

variable {depth : ℕ} {text : List (Char × Mark)} {mark : Mark}

theorem Agrees.here_of_map (h : Agrees depth text) {l m : List Mark}
    (hm : (holes (place depth) (text.map Prod.fst)).map (l ++ ·) = some m) :
    m = l ++ text.map (·.2.bare) := by
  obtain ⟨rest, hr, rfl⟩ := Option.map_eq_some_iff.mp hm
  rw [h.here hr]

theorem behind_of_ne (hc : c ≠ '}') {marks : List Mark}
    (h : holes .outside ('}' :: ((c, mark) :: text).map Prod.fst) = some marks) :
    marks = .plain :: ((c, mark) :: text).map (·.2.bare) := by
  rw [holes_close (by simpa using hc)] at h
  cases h

theorem Agrees.cons (h : Agrees depth text) (hm : mark.bare = .plain) (ho : c ≠ '{') (hc : c ≠ '}')
    (hq : depth ≠ 0 → c ≠ quote) : Agrees depth ((c, mark) :: text) where
  here {marks} hs := by
    rw [List.map_cons, hm]
    cases depth with
    | zero => exact h.here_of_map (l := [.plain]) ((holes_plain ho hc).symm.trans hs)
    | succ depth =>
      refine h.here_of_map (l := [.plain]) ?_
      rw [← hs]
      simp [place, holes, ho, hc, hq]
  behind _ := behind_of_ne hc

theorem head_scan (h : scan depth source = some text)
    (hm : tame (depth ≠ 0) text) (hb : source.head? ≠ some '{') :
    (text.map Prod.fst).head? ≠ some '{' := by
  fun_induction scan depth source generalizing text with
  | case1 | case3 | case4 | case9 => cases h
  | case2 =>
    cases h
    simp
  | case6 | case7 => simp at hb
  | case5 | case8 | case10 | case11 =>
    obtain ⟨text, -, rfl⟩ := Option.map_eq_some_iff.mp h
    simp_all [tame, quote]

theorem agrees_scan (h : scan depth source = some text)
    (hm : tame (depth ≠ 0) text) : Agrees depth text := by
  fun_induction scan depth source generalizing text with
  | case1 => cases h
  | case2 depth c rest hq =>
    cases h
    obtain ⟨-, rfl⟩ := hq
    exact ⟨by simp [place, holes], by simp [holes]⟩
  | case3 => cases h
  | case4 => cases h
  | case5 depth hq e rest v after he ih =>
    obtain ⟨text, ht, rfl⟩ := Option.map_eq_some_iff.mp h
    obtain ⟨ho, hc, hv, hm⟩ := hm
    exact (ih ht hm).cons rfl ho hc fun hd => hv (by simpa using hd)
  | case6 depth rest hh hq hc ih =>
    obtain ⟨text, ht, rfl⟩ := Option.map_eq_some_iff.mp h
    obtain ⟨hd, -, hm⟩ := hm
    obtain rfl : depth = 0 := by simpa using hd
    refine ⟨fun {marks} hs => ?_, fun _ => behind_of_ne (by decide)⟩
    refine (ih ht hm).here_of_map (l := [.plain, .plain]) ?_
    rw [← hs]
    simp [place, holes]
  | case7 depth rest hh hq hc ih =>
    obtain ⟨text, ht, rfl⟩ := Option.map_eq_some_iff.mp h
    refine ⟨fun {marks} hs => ?_, fun _ => behind_of_ne (by decide)⟩
    cases depth with
    | zero =>
      have hb := head_scan ht hm hh
      refine (ih ht hm).here_of_map (l := [.opens]) ?_
      rw [← hs]
      exact (holes_open hb).symm
    | succ depth =>
      refine (ih ht (by simpa [tame] using hm)).here_of_map (l := [.plain]) ?_
      rw [← hs]
      simp [place, holes, quote]
  | case8 depth c rest hq hc ho hd ih =>
    obtain ⟨text, ht, rfl⟩ := Option.map_eq_some_iff.mp h
    obtain ⟨rfl, hd⟩ := hd
    refine ⟨fun {marks} hs => ?_, fun h => by omega⟩
    obtain _ | _ | depth := depth
    · omega
    · refine (ih ht hm).here_of_map (l := [.closes]) ?_
      rw [← hs]
      simp [place, holes, quote]
    · refine (ih ht (by simpa [tame] using hm)).here_of_map (l := [.plain]) ?_
      rw [← hs]
      simp [place, holes, quote]
  | case9 => cases h
  | case10 depth rest inner after hn hq hc ho hd ih =>
    obtain ⟨text, ht, rfl⟩ := Option.map_eq_some_iff.mp h
    obtain _ | depth := depth
    · simp at hq
    refine ⟨fun {marks} hs => ?_, fun h => by omega⟩
    have hi : ∀ inner : List Char, tame true (inner.map (·, .plain) ++ text) = tame true text := by
      intro inner
      induction inner with
      | nil => rfl
      | cons c rest ih => exact ih
    have hg := ih ht (by simpa [tame, hi] using hm)
    have hr := hg.here_of_map (m := marks) (l := .plain :: inner.map fun _ => .plain) ?_
    · simpa [Mark.bare, Function.comp_def] using hr
    · rw [← hs]
      simp [place, holes, holes_nested hn, Function.comp_def]
  | case11 depth c rest hq hc ho hd hqu ih =>
    obtain ⟨text, ht, rfl⟩ := Option.map_eq_some_iff.mp h
    have hg := ih ht hm
    by_cases hb : c = '}'
    · obtain rfl : depth = 0 := by simpa [hb] using hd
      subst hb
      refine ⟨fun hs => hg.behind rfl hs, fun _ {marks} hs => ?_⟩
      exact hg.here_of_map (l := [.plain, .plain]) (by rw [← hs]; simp [place, holes])
    · exact hg.cons rfl ho hb fun _ => hqu

end TextHoles

end Nivren
