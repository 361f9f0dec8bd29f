import Mathlib

/-! Trees of directories and files.

The contents of files are of any type. What stands at a path is read off with `look`; each operation
is described by what `look` finds afterwards. Trees have no links, so a path names one place.
-/

namespace FileTree

open List

variable {α : Type}

abbrev Path := List String

inductive Node (α : Type)
  | file (contents : α)
  | dir (children : List (String × Node α))

inductive Entry (α : Type)
  | file (contents : α)
  | dir
deriving DecidableEq

def Unrelated (p q : Path) : Prop := ¬ p <+: q ∧ ¬ q <+: p

variable {p : Path}

theorem Unrelated.append {q : Path} (h : Unrelated p q) (rest : Path) : Unrelated (p ++ rest) q := by
  constructor
  · exact fun hp => h.1 ((prefix_append p rest).trans hp)
  · intro hq
    rcases List.prefix_or_prefix_of_prefix hq (prefix_append p rest) with hb | ha
    · exact h.2 hb
    · exact h.1 ha

inductive Fault
  | notFound
  | notADirectory
  | isADirectory
  | alreadyExists
  | notEmpty
  | invalid
  | denied
deriving DecidableEq, Repr

def Node.entry : Node α → Entry α
  | .file contents => .file contents
  | .dir _ => .dir

def Node.get : Path → Node α → Option (Node α)
  | [], node => some node
  | _ :: _, .file _ => none
  | name :: rest, .dir children => (children.lookup name).bind (Node.get rest)

/-- Why nothing stands at a path. -/
def Node.missing : Path → Node α → Fault
  | _ :: _, .file _ => .notADirectory
  | name :: rest, .dir children =>
    match children.lookup name with
    | some child => child.missing rest
    | none => .notFound
  | [], _ => .notFound

def Node.look (t : Node α) (path : Path) : Option (Entry α) := (t.get path).map Node.entry

def setChild (children : List (String × Node α)) (name : String) (new : Option (Node α)) :
    List (String × Node α) :=
  (new.map fun node => (name, node)).toList ++ children.filter (·.1 != name)

/-- The tree with another node, or none, at a path below a directory. -/
def Node.alter (new : Option (Node α)) : Path → Node α → Option (Node α)
  | [], _ | _ :: _, .file _ => none
  | [name], .dir children => some (.dir (setChild children name new))
  | name :: rest, .dir children =>
    ((children.lookup name).bind (Node.alter new rest)).map fun child =>
      .dir (setChild children name (some child))

theorem lookup_filter_ne (children : List (String × Node α)) (name other : String) :
    (children.filter (·.1 != name)).lookup other =
      if other = name then none else children.lookup other := by
  induction children with
  | nil => simp
  | cons entry rest ih =>
    obtain ⟨key, node⟩ := entry
    by_cases hkey : key = name
    · rw [filter_cons_of_neg (by simp [hkey]), ih]
      by_cases hot : other = name
      · rw [if_pos hot, if_pos hot]
      · have hne : (other == key) = false := by simp [hkey, hot]
        rw [lookup_cons, hne]
    · rw [filter_cons_of_pos (by simp [hkey]), lookup_cons, lookup_cons, ih]
      by_cases hot : other = key
      · simp [hot, hkey]
      · rw [beq_eq_false_iff_ne.mpr hot]

theorem lookup_setChild (children : List (String × Node α)) (name other : String)
    (new : Option (Node α)) :
    (setChild children name new).lookup other =
      if other = name then new else children.lookup other := by
  unfold setChild
  cases new with
  | none => simpa using lookup_filter_ne children name other
  | some node =>
    by_cases hot : other = name
    · simp [hot]
    · have hne : (other == name) = false := beq_eq_false_iff_ne.mpr hot
      have hf := lookup_filter_ne children name other
      rw [if_neg hot] at hf ⊢
      change ((name, node) :: children.filter (·.1 != name)).lookup other = _
      rw [lookup_cons, hne]
      exact hf

@[simp] theorem look_file_cons (contents : α) (name : String) (rest : Path) :
    (Node.file contents).look (name :: rest) = none := rfl

@[simp] theorem look_nil (t : Node α) : t.look [] = some t.entry := rfl

theorem look_dir_cons (children : List (String × Node α)) (name : String) (rest : Path) :
    (Node.dir children).look (name :: rest) = (children.lookup name).bind (·.look rest) := by
  change ((children.lookup name).bind (Node.get rest)).map Node.entry = _
  cases children.lookup name <;> rfl

theorem look_append (t : Node α) (p q : Path) : t.look (p ++ q) = (t.get p).bind (·.look q) := by
  induction p generalizing t with
  | nil => rfl
  | cons name rest ih =>
    cases t with
    | file contents => rfl
    | dir children =>
      rw [cons_append, look_dir_cons, Node.get]
      cases children.lookup name with
      | none => rfl
      | some child => exact ih child

/-- Nothing stands below a path that is not a directory. -/
theorem look_append_eq_none {t : Node α} {q : Path} (hp : t.look p ≠ some .dir) (hq : q ≠ []) :
    t.look (p ++ q) = none := by
  rw [look_append]
  unfold Node.look at hp
  cases hn : t.get p with
  | none => rfl
  | some node =>
    rw [hn] at hp
    obtain ⟨name, rest, rfl⟩ := exists_cons_of_ne_nil hq
    cases node with
    | file contents => rfl
    | dir children => exact absurd rfl hp

theorem look_eq_dir_of_append {t : Node α} {p q : Path} (h : t.look (p ++ q) ≠ none)
    (hq : q ≠ []) : t.look p = some .dir := by
  by_contra hp
  exact h (look_append_eq_none hp hq)

/-- Only a directory is missing what it does not have. -/
theorem missing_eq_notFound {t : Node α} {name : String} (hp : t.look p = some .dir)
    (hn : t.look (p ++ [name]) = none) : t.missing (p ++ [name]) = .notFound := by
  induction p generalizing t with
  | nil =>
    cases t with
    | file contents => cases hp
    | dir children =>
      rw [nil_append, look_dir_cons] at hn
      cases hc : children.lookup name with
      | none => simp [Node.missing, hc]
      | some child => simp [hc] at hn
  | cons first rest ih =>
    cases t with
    | file contents => cases hp
    | dir children =>
      rw [cons_append, look_dir_cons] at hn
      rw [look_dir_cons] at hp
      cases hc : children.lookup first with
      | none => simp [hc] at hp
      | some child =>
        rw [hc] at hp hn
        rw [cons_append, Node.missing, hc]
        exact ih hp hn

variable {new : Option (Node α)}

theorem alter_isSome {path : Path} {t : Node α} :
    (Node.alter new path t).isSome = true ↔ path ≠ [] ∧ t.look path.dropLast = some .dir := by
  induction path generalizing t with
  | nil => simp [Node.alter]
  | cons name rest ih =>
    cases t with
    | file contents =>
      cases rest with
      | nil => simp [Node.alter, Node.entry]
      | cons second rest => simp [Node.alter]
    | dir children =>
      cases rest with
      | nil => simp [Node.alter, Node.entry]
      | cons second rest =>
        rw [Node.alter, Option.isSome_map, dropLast_cons_cons, look_dir_cons]
        · cases children.lookup name with
          | none => simp
          | some child =>
            have := @ih child
            simpa using this
        · nofun

/-- Only what stands at the path and below it changes. -/
theorem look_alter {path : Path} {t t' : Node α} (h : Node.alter new path t = some t') (q : Path) :
    t'.look q = if path <+: q then new.bind (·.look (q.drop path.length)) else t.look q := by
  induction path generalizing t t' q with
  | nil => simp [Node.alter] at h
  | cons name rest ih =>
    cases t with
    | file contents => cases rest <;> simp [Node.alter] at h
    | dir children =>
      cases rest with
      | nil =>
        rw [Node.alter, Option.some.injEq] at h
        subst h
        cases q with
        | nil => simp [Node.entry]
        | cons first q =>
          rw [look_dir_cons, look_dir_cons, lookup_setChild]
          by_cases hf : first = name
          · simp [hf]
          · have hne : ¬ [name] <+: first :: q := by simpa using Ne.symm hf
            rw [if_neg hf, if_neg hne]
      | cons second rest =>
        rw [Node.alter] at h
        · obtain ⟨child', hc, rfl⟩ := Option.map_eq_some_iff.mp h
          obtain ⟨child, hl, ha⟩ := Option.bind_eq_some_iff.mp hc
          cases q with
          | nil => simp [Node.entry]
          | cons first q =>
            rw [look_dir_cons, look_dir_cons, lookup_setChild]
            by_cases hf : first = name
            · subst hf
              rw [if_pos rfl, hl]
              simpa using ih ha q
            · have hne : ¬ name :: second :: rest <+: first :: q := by
                rw [cons_prefix_cons]
                exact fun hp => hf hp.1.symm
              rw [if_neg hf, if_neg hne]
        · nofun

def parentFault (t : Node α) (path : Path) : Fault :=
  match t.look path.dropLast with
  | some (.file _) => .notADirectory
  | some .dir => .invalid
  | none => t.missing path.dropLast

def put (new : Option (Node α)) (path : Path) (t : Node α) : Except Fault (Node α) :=
  match t.alter new path with
  | some t' => .ok t'
  | none => .error (parentFault t path)

def read (path : Path) (t : Node α) : Except Fault α :=
  match t.look path with
  | some (.file contents) => .ok contents
  | some .dir => .error .isADirectory
  | none => .error (t.missing path)

def «exists» (path : Path) (t : Node α) : Bool := (t.look path).isSome

def readDir (path : Path) (t : Node α) : Except Fault (List String) :=
  match t.get path with
  | none => .error (t.missing path)
  | some (.file _) => .error .notADirectory
  | some (.dir children) => .ok (children.map Prod.fst).eraseDups

def createDir (path : Path) (t : Node α) : Except Fault (Node α) :=
  match t.look path with
  | some _ => .error .alreadyExists
  | none => put (some (.dir [])) path t

/-- Makes sure of the directories on the way to a path, below those that are there. -/
def createDirsFrom (above : Path) : Path → Node α → Except Fault (Node α)
  | [], t => .ok t
  | name :: rest, t => do
    let path := above ++ [name]
    match t.look path with
    | some .dir => createDirsFrom path rest t
    | some (.file _) => .error (if rest = [] then .alreadyExists else .notADirectory)
    | none => createDirsFrom path rest (← put (some (.dir [])) path t)

def createDirAll (path : Path) (t : Node α) : Except Fault (Node α) := createDirsFrom [] path t

def write (path : Path) (contents : α) (t : Node α) : Except Fault (Node α) :=
  match t.look path with
  | some .dir => .error .isADirectory
  | _ => put (some (.file contents)) path t

def moveFault : Node α → Node α → Option Fault
  | .file _, .file _ | .dir _, .dir [] => none
  | .file _, .dir _ => some .isADirectory
  | .dir _, .file _ => some .notADirectory
  | .dir _, .dir (_ :: _) => some .notEmpty

def rename (source target : Path) (t : Node α) : Except Fault (Node α) :=
  match t.get source with
  | none => .error (t.missing source)
  | some node =>
    if source = target then .ok t
    else if source <+: target then .error .invalid
    else match (t.get target).bind (moveFault node) with
    | some fault => .error fault
    | none => do put (some node) target (← put none source t)

def removeDirAll (path : Path) (t : Node α) : Except Fault (Node α) :=
  match t.look path with
  | none => .error (t.missing path)
  | some (.file _) => .error .notADirectory
  | some .dir => put none path t

section Specs

variable {path q : Path} {t t' : Node α}

theorem put_eq_ok : put new path t = .ok t' ↔ t.alter new path = some t' := by
  unfold put
  split
  next found h => simp [h]
  next h => simp [h]

theorem put_isOk {new : Option (Node α)} (hpa : path ≠ []) (hp : t.look path.dropLast = some .dir) :
    ∃ t', put new path t = .ok t' := by
  have hso : (t.alter new path).isSome = true := alter_isSome.mpr ⟨hpa, hp⟩
  obtain ⟨t', h⟩ := Option.isSome_iff_exists.mp hso
  exact ⟨t', put_eq_ok.mpr h⟩

theorem look_put (h : put new path t = .ok t') (q : Path) :
    t'.look q = if path <+: q then new.bind (·.look (q.drop path.length)) else t.look q :=
  look_alter (put_eq_ok.mp h) q

variable {contents : α}

theorem read_eq_ok : read path t = .ok contents ↔ t.look path = some (.file contents) := by
  unfold read
  split
  next found h => simp [h]
  next h => simp [h]
  next h => simp [h]

/-- A node without anything below it comes to stand at a path with nothing below it. -/
theorem look_put_leaf {node : Node α} (hl : ∀ rest, rest ≠ [] → node.look rest = none)
    (hf : t.look path ≠ some .dir) (h : put (some node) path t = .ok t') (q : Path) :
    t'.look q = if q = path then some node.entry else t.look q := by
  rw [look_put h]
  by_cases hp : path <+: q
  · obtain ⟨rest, rfl⟩ := hp
    rw [if_pos (prefix_append ..), drop_left]
    by_cases hr : rest = []
    · rw [hr, append_nil, if_pos rfl]
      rfl
    · have hne : path ++ rest ≠ path := by simpa using hr
      rw [if_neg hne, look_append_eq_none hf hr]
      exact hl rest hr
  · have hne : q ≠ path := fun heq => hp (heq ▸ prefix_rfl)
    rw [if_neg hp, if_neg hne]

theorem look_file_eq_none (contents : α) (rest : Path) (h : rest ≠ []) :
    (Node.file contents).look rest = none := by
  obtain ⟨name, more, rfl⟩ := exists_cons_of_ne_nil h
  rfl

theorem look_empty_eq_none (rest : Path) (h : rest ≠ []) : (Node.dir [] : Node α).look rest = none := by
  obtain ⟨name, more, rfl⟩ := exists_cons_of_ne_nil h
  rfl

theorem look_write (h : write path contents t = .ok t') (q : Path) :
    t'.look q = if q = path then some (.file contents) else t.look q := by
  unfold write at h
  split at h
  · cases h
  next hnot => exact look_put_leaf (look_file_eq_none contents) (fun hdir => hnot hdir) h q

theorem write_isOk (contents : α) (hpa : path ≠ []) (hp : t.look path.dropLast = some .dir)
    (hf : t.look path ≠ some .dir) : ∃ t', write path contents t = .ok t' := by
  unfold write
  split
  next h => exact absurd h hf
  · exact put_isOk hpa hp

theorem look_ne_dir_of_write (h : write path contents t = .ok t') : t.look path ≠ some .dir := by
  unfold write at h
  split at h
  · cases h
  next hnot => exact hnot

theorem look_createDir (h : createDir path t = .ok t') (q : Path) :
    t'.look q = if q = path then some .dir else t.look q := by
  unfold createDir at h
  split at h
  · cases h
  next hn => exact look_put_leaf look_empty_eq_none (by simp [hn]) h q

theorem createDir_isOk (hpa : path ≠ []) (hp : t.look path.dropLast = some .dir)
    (hf : t.look path = none) : ∃ t', createDir path t = .ok t' := by
  unfold createDir
  rw [hf]
  exact put_isOk hpa hp

def Between (above below q : Path) : Prop := above <+: q ∧ q ≠ above ∧ q <+: below

variable {above rest : Path}

theorem between_cons {q : Path} {name : String} : Between above (above ++ name :: rest) q ↔
      q = above ++ [name] ∨ Between (above ++ [name]) (above ++ name :: rest) q := by
  constructor
  · rintro ⟨⟨more, rfl⟩, hne, hb⟩
    have hm : more ≠ [] := fun h => hne (by simp [h])
    obtain ⟨first, others, rfl⟩ := exists_cons_of_ne_nil hm
    rw [prefix_append_right_inj, cons_prefix_cons] at hb
    obtain ⟨rfl, hot⟩ := hb
    by_cases hnil : others = []
    · exact .inl (by simp [hnil])
    · refine .inr ⟨⟨others, by simp⟩, by simpa using hnil, ?_⟩
      rw [prefix_append_right_inj, cons_prefix_cons]
      exact ⟨rfl, hot⟩
  · rintro (rfl | ⟨ha, hne, hb⟩)
    · exact ⟨prefix_append .., by simp, by simp⟩
    · refine ⟨(prefix_append ..).trans ha, fun heq => ?_, hb⟩
      have hl := (heq ▸ ha).length_le
      rw [length_append, length_singleton] at hl
      omega

theorem createDirsFrom_cons {name : String} (h : createDirsFrom above (name :: rest) t = .ok t') :
    (∀ contents, t.look (above ++ [name]) ≠ some (.file contents)) ∧
      ∃ s, createDirsFrom (above ++ [name]) rest s = .ok t' ∧ s.look (above ++ [name]) = some .dir ∧
        ∀ p ≠ above ++ [name], s.look p = t.look p := by
  unfold createDirsFrom at h
  simp only at h
  split at h
  next hdir => exact ⟨by simp [hdir], t, h, hdir, fun _ _ => rfl⟩
  · cases h
  next hn =>
    cases hput : put (some (.dir [])) (above ++ [name]) t with
    | error fault =>
      rw [hput] at h
      cases h
    | ok s =>
      rw [hput] at h
      have hl := look_put_leaf look_empty_eq_none (by simp [hn]) hput
      exact ⟨by simp [hn], s, h, by rw [hl, if_pos rfl]; rfl, fun p hp => by rw [hl, if_neg hp]⟩

theorem look_createDirsFrom (h : createDirsFrom above rest t = .ok t') (q : Path) :
    (Between above (above ++ rest) q → t'.look q = some .dir) ∧
      (¬ Between above (above ++ rest) q → t'.look q = t.look q) := by
  induction rest generalizing above t with
  | nil =>
    cases h
    refine ⟨fun ⟨ha, hne, hbe⟩ => absurd ?_ hne, fun _ => rfl⟩
    rw [append_nil] at hbe
    exact hbe.eq_of_length_le ha.length_le
  | cons name rest ih =>
    obtain ⟨-, s, hr, hdir, hsa⟩ := createDirsFrom_cons h
    obtain ⟨hin, hout⟩ := ih hr
    rw [append_assoc, singleton_append] at hin hout
    have hse : ¬ Between (above ++ [name]) (above ++ name :: rest) (above ++ [name]) :=
      fun hb => hb.2.1 rfl
    constructor
    · intro hb
      rcases between_cons.mp hb with rfl | hb
      · rw [hout hse, hdir]
      · exact hin hb
    · intro hb
      rw [between_cons, not_or] at hb
      rw [hout hb.2, hsa q hb.1]

theorem createDirsFrom_isOk {above rest : Path} (ha : t.look above = some .dir)
    (hf : ∀ q contents, Between above (above ++ rest) q → t.look q ≠ some (.file contents)) :
    ∃ t', createDirsFrom above rest t = .ok t' := by
  induction rest generalizing above t with
  | nil => exact ⟨t, rfl⟩
  | cons name rest ih =>
    have hst : ∀ s, s.look (above ++ [name]) = some .dir →
        (∀ p, p ≠ above ++ [name] → s.look p = t.look p) →
        ∃ t', createDirsFrom (above ++ [name]) rest s = .ok t' := by
      intro s hdir hsa
      refine ih hdir fun q contents hb => ?_
      rw [append_assoc, singleton_append] at hb
      rw [hsa q hb.2.1]
      exact hf q contents (between_cons.mpr (.inr hb))
    have hn : ∀ contents, t.look (above ++ [name]) ≠ some (.file contents) :=
      fun contents => hf _ contents (between_cons.mpr (.inl rfl))
    unfold createDirsFrom
    simp only
    split
    next hdir => exact hst t hdir fun _ _ => rfl
    next contents hfi => exact absurd hfi (hn contents)
    next hno =>
      have hpa : t.look (above ++ [name]).dropLast = some .dir := by
        rwa [dropLast_concat]
      obtain ⟨s, hput⟩ := @put_isOk α _ t (some (.dir [])) (by simp) hpa
      have hl := look_put_leaf look_empty_eq_none (by simp [hno]) hput
      rw [hput]
      exact hst s (by rw [hl, if_pos rfl]; rfl) fun p hp => by rw [hl, if_neg hp]

theorem createDirsFrom_free (h : createDirsFrom above rest t = .ok t')
    (hb : Between above (above ++ rest) q) : t.look q ≠ some (.file contents) := by
  induction rest generalizing above t with
  | nil =>
    obtain ⟨ha, hne, hbe⟩ := hb
    rw [append_nil] at hbe
    exact absurd (hbe.eq_of_length_le ha.length_le) hne
  | cons name rest ih =>
    obtain ⟨hfree, s, hr, -, hsa⟩ := createDirsFrom_cons h
    rcases between_cons.mp hb with rfl | hb
    · exact hfree contents
    · rw [← hsa q hb.2.1]
      refine ih hr ?_
      rwa [append_assoc, singleton_append]

theorem look_rename {source target : Path} (h : rename source target t = .ok t')
    (hne : source ≠ target) (q : Path) :
    t'.look q = if target <+: q then t.look (source ++ q.drop target.length)
      else if source <+: q then none else t.look q := by
  unfold rename at h
  split at h
  · cases h
  next node hn =>
    rw [if_neg hne] at h
    split at h
    · cases h
    split at h
    · cases h
    cases hr : put none source t with
    | error fault =>
      rw [hr] at h
      cases h
    | ok s =>
      rw [hr] at h
      rw [look_put h, look_put hr, look_append, hn]
      rfl

theorem rename_isOk_of {source target : Path} {node : Node α} (hn : t.get source = some node)
    (hro : source ≠ []) (hne : ¬ source <+: target) (hta : target ≠ [])
    (hm : (t.get target).bind (moveFault node) = none) (hpa : t.look target.dropLast = some .dir) :
    ∃ t', rename source target t = .ok t' := by
  have hsa : source ≠ target := fun heq => hne (heq ▸ prefix_rfl)
  have ha : t.look source.dropLast = some .dir := by
    refine @look_eq_dir_of_append _ _ _ [source.getLast hro] ?_ (by simp)
    simp [dropLast_append_getLast, Node.look, hn]
  obtain ⟨s, hr⟩ := @put_isOk α _ t none hro ha
  have hke : s.look target.dropLast = some .dir := by
    have hout : ¬ source <+: target.dropLast := fun hp => hne (hp.trans (List.dropLast_prefix _))
    rw [look_put hr, if_neg hout, hpa]
  simp only [rename, hn, hsa, if_false, hne, hm, hr]
  exact put_isOk hta hke

theorem rename_isOk {source target : Path} (hso : t.look source ≠ none) (hro : source ≠ [])
    (hne : ¬ source <+: target) (hta : target ≠ []) (hf : t.look target = none)
    (hpa : t.look target.dropLast = some .dir) : ∃ t', rename source target t = .ok t' := by
  have hget : t.get target = none := by simpa [Node.look] using hf
  cases hn : t.get source with
  | none => simp [Node.look, hn] at hso
  | some node => exact rename_isOk_of hn hro hne hta (by simp [hget]) hpa

/-- A file can take the place of another one. -/
theorem rename_file_isOk {source target : Path} {contents : α}
    (hso : t.look source = some (.file contents)) (hro : source ≠ []) (hne : ¬ source <+: target)
    (hta : target ≠ []) (hf : t.look target ≠ some .dir)
    (hpa : t.look target.dropLast = some .dir) : ∃ t', rename source target t = .ok t' := by
  cases hn : t.get source with
  | none => simp [Node.look, hn] at hso
  | some node =>
    cases node with
    | dir children => simp [Node.look, hn, Node.entry] at hso
    | file found =>
      refine rename_isOk_of hn hro hne hta ?_ hpa
      cases hold : t.get target with
      | none => rfl
      | some old =>
        cases old with
        | file _ => rfl
        | dir _ => simp [Node.look, hold, Node.entry] at hf

theorem removeDirAll_isOk (hp : path ≠ []) (h : t.look path = some .dir) :
    ∃ t', removeDirAll path t = .ok t' := by
  have hpa : t.look path.dropLast = some .dir := by
    refine @look_eq_dir_of_append _ _ _ [path.getLast hp] ?_ (by simp)
    rw [dropLast_append_getLast, h]
    simp
  unfold removeDirAll
  rw [h]
  exact put_isOk hp hpa

theorem look_removeDirAll (h : removeDirAll path t = .ok t') (q : Path) :
    t'.look q = if path <+: q then none else t.look q := by
  unfold removeDirAll at h
  split at h
  · cases h
  · cases h
  · exact look_put h q

end Specs

end FileTree
