import Nivren.Library.PathText

/-! File systems with symbolic links.

A path is followed name by name; a link on the way is replaced by its text. `locate` says where a
path leads, also when only its last name is missing, so that opening and creating both touch the
place it finds. The number of links that may be followed is bounded.
-/

namespace FileTree

open List

/-- What stands at a place: a link is a text. -/
inductive LinkNode
  | file
  | dir
  | link (text : String)
deriving DecidableEq

/-- A file system. Everything but the root stands under a name in a directory. -/
structure LinkTree where
  look : Path → Option LinkNode
  root : look [] = some .dir
  closed : ∀ path name, look (path ++ [name]) ≠ none → look path = some .dir
  named : ∀ path name, look (path ++ [name]) ≠ none → IsName name

/-- A text that ends in `/` or `.` has to lead to a directory. -/
def namesDirectory (text : String) : Bool :=
  (text.toList.splitOn '/').getLast?.any fun part => part = [] ∨ part = ['.']

namespace LinkTree

/-- Follows parts up to the first link, which `follow` takes over. The flag says that the parts have
to lead to a directory. -/
def locateWith (t : LinkTree) (follow : Path → List String → Bool → Option Path) :
    Path → List String → Bool → Option Path
  | place, [], directory => if directory ∧ t.look place ≠ some .dir then none else some place
  | place, part :: rest, directory =>
    if t.look place ≠ some .dir then none
    else if part = ".." then t.locateWith follow place.dropLast rest directory
    else
      match t.look (place ++ [part]) with
      | none => if rest = [] ∧ directory = false then some (place ++ [part]) else none
      | some (.link text) =>
        follow (if isAbsolute text then [] else place) (segments text ++ rest)
          (directory || (rest.isEmpty && namesDirectory text))
      | some _ => t.locateWith follow (place ++ [part]) rest directory

/-- Where parts lead from a place; at most `hops` links are followed. -/
def locate (t : LinkTree) : ℕ → Path → List String → Bool → Option Path
  | 0 => t.locateWith fun _ _ _ => none
  | hops + 1 => t.locateWith (t.locate hops)

variable {t : LinkTree} {path : Path}

theorem look_of_append {rest : Path} (hr : rest ≠ []) (h : t.look (path ++ rest) ≠ none) :
    t.look path = some .dir := by
  induction rest using reverseRecOn with
  | nil => exact absurd rfl hr
  | append_singleton rest name ih =>
    rw [← append_assoc] at h
    have hdir : t.look (path ++ rest) = some .dir := t.closed _ name h
    rcases eq_or_ne rest [] with hnil | hne
    · simpa [hnil] using hdir
    · exact ih hne (by simp [hdir])

variable {place : Path}

theorem look_dropLast (h : t.look place = some .dir) : t.look place.dropLast = some .dir := by
  rcases eq_nil_or_concat place with hnil | ⟨front, name, hp⟩
  · rw [hnil]
    exact t.root
  · rw [hp] at h ⊢
    rw [concat_eq_append] at h ⊢
    rw [dropLast_concat]
    exact t.closed front name (by simp [h])

theorem isName_of_look (h : t.look path ≠ none) : ∀ name ∈ path, IsName name := by
  induction path using reverseRecOn with
  | nil => simp
  | append_singleton front last ih =>
    intro name hn
    rcases mem_append.mp hn with hf | hl
    · exact ih (by simp [t.closed front last h]) name hf
    · rw [mem_singleton.mp hl]
      exact t.named front last h

/-- The parts lead from a place to another, one rule for each thing that can stand on the way. -/
inductive Leads (t : LinkTree) : ℕ → Path → List String → Bool → Path → Prop
  | here {hops : ℕ} {place : Path} {directory : Bool}
      (hend : directory = true → t.look place = some .dir) : Leads t hops place [] directory place
  | up {hops : ℕ} {place q : Path} {rest : List String} {directory : Bool}
      (hdir : t.look place = some .dir) (hrest : Leads t hops place.dropLast rest directory q) :
      Leads t hops place (".." :: rest) directory q
  | fresh {hops : ℕ} {place : Path} {part : String} (hdir : t.look place = some .dir)
      (hpart : part ≠ "..") (hnone : t.look (place ++ [part]) = none) :
      Leads t hops place [part] false (place ++ [part])
  | link {hops : ℕ} {place q : Path} {part text : String} {rest : List String} {directory : Bool}
      (hdir : t.look place = some .dir) (hpart : part ≠ "..")
      (hlink : t.look (place ++ [part]) = some (.link text))
      (hrest : Leads t hops (if isAbsolute text then [] else place) (segments text ++ rest)
        (directory || (rest.isEmpty && namesDirectory text)) q) :
      Leads t (hops + 1) place (part :: rest) directory q
  | down {hops : ℕ} {place q : Path} {part : String} {rest : List String} {directory : Bool}
      {node : LinkNode} (hdir : t.look place = some .dir) (hpart : part ≠ "..")
      (hnode : t.look (place ++ [part]) = some node) (hplain : ∀ text, node ≠ .link text)
      (hrest : Leads t hops (place ++ [part]) rest directory q) :
      Leads t hops place (part :: rest) directory q

section Equations

variable {hops : ℕ} {place : Path} {part text : String} {rest : List String} {directory : Bool}
  {node : LinkNode}

theorem locate_nil : t.locate hops place [] directory =
    if directory ∧ t.look place ≠ some .dir then none else some place := by
  cases hops <;> rfl

theorem locate_up (hdir : t.look place = some .dir) :
    t.locate hops place (".." :: rest) directory = t.locate hops place.dropLast rest directory := by
  cases hops <;> simp [locate, locateWith, hdir]

theorem locate_fresh (hdir : t.look place = some .dir) (hp : part ≠ "..")
    (hn : t.look (place ++ [part]) = none) :
    t.locate hops place (part :: rest) directory =
      if rest = [] ∧ directory = false then some (place ++ [part]) else none := by
  cases hops <;> simp [locate, locateWith, hdir, hp, hn]

theorem locate_link (hdir : t.look place = some .dir) (hp : part ≠ "..")
    (hl : t.look (place ++ [part]) = some (.link text)) :
    t.locate (hops + 1) place (part :: rest) directory =
      t.locate hops (if isAbsolute text then [] else place) (segments text ++ rest)
        (directory || (rest.isEmpty && namesDirectory text)) := by
  simp [locate, locateWith, hdir, hp, hl]

theorem locate_down (hdir : t.look place = some .dir) (hp : part ≠ "..")
    (hn : t.look (place ++ [part]) = some node) (hpl : ∀ text, node ≠ .link text) :
    t.locate hops place (part :: rest) directory =
      t.locate hops (place ++ [part]) rest directory := by
  cases node with
  | link text => exact absurd rfl (hpl text)
  | file | dir => cases hops <;> simp [locate, locateWith, hdir, hp, hn]

end Equations

variable {parts : List String} {directory : Bool}

theorem Leads.locate_eq {hops : ℕ} {q : Path} (h : Leads t hops place parts directory q) :
    t.locate hops place parts directory = some q := by
  induction h with
  | here hend =>
    rw [locate_nil, if_neg]
    rintro ⟨hd, hnot⟩
    exact hnot (hend hd)
  | up hdir hr ih => rw [locate_up hdir, ih]
  | fresh hdir hp hno => rw [locate_fresh hdir hp hno, if_pos ⟨rfl, rfl⟩]
  | link hdir hp hl hr ih => rw [locate_link hdir hp hl, ih]
  | down hdir hp hn hpl hr ih => rw [locate_down hdir hp hn hpl, ih]

/-- The rules say all that `locate` does. -/
theorem leads_of_locate {hops : ℕ} {q : Path}
    (h : t.locate hops place parts directory = some q) : Leads t hops place parts directory q := by
  -- on the links that may still be followed, then on the parts
  induction hops generalizing place parts directory with
  | zero | succ hops ihHops =>
    induction parts generalizing place with
    | nil =>
      rw [locate_nil] at h
      split at h
      · cases h
      · rename_i hend
        cases h
        exact .here fun hd => by_contra fun hnot => hend ⟨hd, hnot⟩
    | cons part rest ih =>
      by_cases hdir : t.look place = some .dir
      swap
      · simp [locate, locateWith, hdir] at h
      by_cases hp : part = ".."
      · subst hp
        rw [locate_up hdir] at h
        exact .up hdir (ih h)
      cases hn : t.look (place ++ [part]) with
      | none =>
        rw [locate_fresh hdir hp hn] at h
        split at h
        · rename_i hl
          obtain ⟨rfl, rfl⟩ := hl
          cases h
          exact .fresh hdir hp hn
        · cases h
      | some node =>
        cases node with
        | link text =>
          first
          | exact .link hdir hp hn (ihHops (locate_link hdir hp hn ▸ h))
          | simp [locate, locateWith, hdir, hp, hn] at h
        | file | dir =>
          rw [locate_down hdir hp hn (by simp)] at h
          exact .down hdir hp hn (by simp) (ih h)

section Leads

variable {hops : ℕ} {place q : Path} {parts : List String} {directory : Bool}

/-- More links allowed lead to the same place. -/
theorem Leads.mono {more : ℕ} (h : Leads t hops place parts directory q) (hm : hops ≤ more) :
    Leads t more place parts directory q := by
  induction h generalizing more with
  | here hend => exact .here hend
  | up hdir hr ih => exact .up hdir (ih hm)
  | fresh hdir hp hno => exact .fresh hdir hp hno
  | link hdir hp hl hr ih =>
    obtain ⟨more, rfl⟩ := Nat.exists_eq_add_of_le' (Nat.le_of_add_left_le hm)
    exact .link hdir hp hl (ih (Nat.le_of_add_le_add_right hm))
  | down hdir hp hn hpl hr ih => exact .down hdir hp hn hpl (ih hm)

/-- What leads to a directory leads there without being told to. -/
theorem Leads.anyEnd (h : Leads t hops place parts directory q) :
    Leads t hops place parts false q := by
  induction h with
  | here hend => exact .here (by simp)
  | up hdir hr ih => exact .up hdir ih
  | fresh hdir hp hno => exact .fresh hdir hp hno
  | @link hops place q part text rest directory hdir hp hl hr ih =>
    refine .link hdir hp hl ?_
    cases hend : rest.isEmpty && namesDirectory text with
    | false => simpa [hend] using ih
    | true => simpa [hend] using hr
  | down hdir hp hn hpl hr ih => exact .down hdir hp hn hpl ih

/-- Links are followed to their end. -/
theorem Leads.not_link (h : Leads t hops place parts directory q)
    (hp : ∀ text, t.look place ≠ some (.link text)) (text : String) :
    t.look q ≠ some (.link text) := by
  induction h with
  | here hend => exact hp text
  | up hdir hr ih => exact ih (by simp [look_dropLast hdir])
  | fresh hdir hpa hno => simp [hno]
  | @link hops place q part target rest directory hdir hpa hl hr ih =>
    apply ih
    split
    · simp [t.root]
    · exact hp
  | down hdir hpa hn hpl hr ih =>
    exact ih fun text hl => hpl text (Option.some.inj (hn.symm.trans hl))

/-- Parts behind others are followed from the place the others lead to, with the links left. -/
theorem Leads.locate_append {rest : List String} (h : Leads t hops place parts directory q)
    (hq : t.look q ≠ none) (hr : rest ≠ []) :
    ∃ left ≤ hops, ∀ directory,
      t.locate hops place (parts ++ rest) directory = t.locate left q rest directory := by
  induction h with
  | @here hops place directory hend => exact ⟨hops, le_rfl, fun _ => rfl⟩
  | up hdir hm ih =>
    obtain ⟨left, hle, heq⟩ := ih hq
    exact ⟨left, hle, fun directory => by rw [cons_append, locate_up hdir, heq]⟩
  | fresh hdir hp hno => exact absurd hno hq
  | @link hops place q part text more directory hdir hp hl hm ih =>
    obtain ⟨left, hle, heq⟩ := ih hq
    -- the link is not the last part, so its own end does not count
    have hin : (more ++ rest).isEmpty = false := by simp [hr]
    refine ⟨left, Nat.le_succ_of_le hle, fun directory => ?_⟩
    rw [cons_append, locate_link hdir hp hl, hin, Bool.false_and, Bool.or_false,
      ← append_assoc, heq]
  | down hdir hp hn hpl hm ih =>
    obtain ⟨left, hle, heq⟩ := ih hq
    exact ⟨left, hle, fun directory => by
      rw [cons_append, locate_down hdir hp hn hpl, heq]⟩

/-- A single name leads to its own place or is a link. -/
theorem Leads.single {name : String} (h : Leads t hops place [name] directory q)
    (hn : name ≠ "..") :
    t.look place = some .dir ∧
      (q = place ++ [name] ∨ ∃ text, t.look (place ++ [name]) = some (.link text)) := by
  cases h with
  | up hdir hr => exact absurd rfl hn
  | fresh hdir hp hnn => exact ⟨hdir, .inl rfl⟩
  | link hdir hp hl hr => exact ⟨hdir, .inr ⟨_, hl⟩⟩
  | down hdir hp hno hpl hr =>
    cases hr
    exact ⟨hdir, .inl rfl⟩

/-- What stands on the way to a place is no link. -/
theorem not_link_of_isPrefix (h : path <+: q)
    (hq : t.look q ≠ none) (hp : ∀ text, t.look q ≠ some (.link text)) (text : String) :
    t.look path ≠ some (.link text) := by
  obtain ⟨rest, rfl⟩ := h
  rcases eq_or_ne rest [] with hnil | hne
  · simpa [hnil] using hp text
  · simp [look_of_append hne hq]

/-- The names of a directory lead to it. -/
theorem leads_names (h : t.look (place ++ parts) = some .dir) :
    Leads t hops place parts directory (place ++ parts) := by
  induction parts generalizing place with
  | nil =>
    rw [append_nil] at h ⊢
    exact .here fun _ => h
  | cons name rest ih =>
    have hh : t.look place = some .dir := look_of_append (cons_ne_nil name rest) (by simp [h])
    rw [append_cons] at h ⊢
    have hdir : t.look (place ++ [name]) = some .dir := by
      rcases eq_or_ne rest [] with hnil | hne
      · simpa [hnil] using h
      · exact look_of_append hne (h ▸ Option.some_ne_none _)
    have hn : IsName name := t.named place name (by simp [hdir])
    exact .down hh hn.notUp hdir (by simp) (ih h)

end Leads

end LinkTree

end FileTree
