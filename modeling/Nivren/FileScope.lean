import Nivren.Library.LinkTree

/-! File scopes.

A file scope names a place, and a path is within it when its own place lies under it. The check looks
places up before the file is opened; a path that does not exist yet is given the place of its parent
and its last name. What an access touches is where the operating system is led by the same path.
-/

namespace Nivren

open FileTree

/-- What a path is looked up in: a file system, the working directory while there is one, and the
number of links that are followed on one way. -/
structure Surroundings where
  tree : LinkTree
  cwd : Option Path
  cwd_dir : ∀ place ∈ cwd, tree.look place = some .dir
  limit : ℕ

namespace Surroundings

variable (env : Surroundings)

def start (value : String) : Option Path :=
  if isAbsolute value then some [] else env.cwd

def follow (value : String) : Option Path :=
  (env.start value).bind fun place =>
    env.tree.locate env.limit place (segments value) (namesDirectory value)

def canonicalize (value : String) : Option Path :=
  (env.follow value).filter fun place => (env.tree.look place).isSome

def canonicalizeParent (value : String) : Option Path :=
  ((env.start value).bind fun place =>
    env.tree.locate env.limit place (segments value).dropLast false).filter
      fun place => (env.tree.look place).isSome

def fileName (value : String) : Option String := (segments value).getLast?.filter (· ≠ "..")

/-- The closure `resolve` of `path_is_within`. A path without names leads to the directory it starts
from, which exists, so the parent is only asked for behind a name. -/
def resolve (value : String) : Option Path :=
  env.canonicalize value <|> do
    let parent ← env.canonicalizeParent value
    let name ← fileName value
    return parent ++ [name]

def pathIsWithin (target scope : String) : Bool :=
  match env.resolve target, env.resolve scope with
  | some target, some scope => scope.isPrefixOf target
  | _, _ => false

def opened (value : String) : Option Path :=
  (env.follow value).filter fun place => env.tree.look place = some .file

def created (value : String) : Option Path :=
  (env.follow value).filter fun place =>
    env.tree.look place = some .file ∨ env.tree.look place = none

/-- The canonical location of a scope, whether or not something stands there yet. -/
def location (scope : String) : Option Path :=
  (env.start scope).bind fun place => env.tree.locate env.limit place (segments scope) false

def Touches (value : String) (place : Path) : Prop :=
  env.opened value = some place ∨ env.created value = some place

/-- The path ends in a link at a place, and where the link leads there is nothing yet. -/
structure Dangles (value : String) (parent : Path) (name : String) (place : Path) : Prop where
  isParent : env.canonicalizeParent value = some parent
  isName : fileName value = some name
  isLink : ∃ text, env.tree.look (parent ++ [name]) = some (.link text)
  leads : env.follow value = some place
  missing : env.tree.look place = none

variable {env} {value : String} {place : Path}

theorem look_start (h : env.start value = some place) : env.tree.look place = some .dir := by
  unfold start at h
  split at h
  · rw [← Option.some.inj h]
    exact env.tree.root
  · exact env.cwd_dir place h

theorem resolve_eq_some (h : env.resolve value = some place) : env.canonicalize value = some place ∨
      env.canonicalize value = none ∧ ∃ parent name, env.canonicalizeParent value = some parent ∧
        fileName value = some name ∧ place = parent ++ [name] := by
  unfold resolve at h
  cases hw : env.canonicalize value with
  | some found => exact .inl (by simpa [hw] using h)
  | none =>
    cases hp : env.canonicalizeParent value with
    | none => simp [hw, hp] at h
    | some parent =>
      cases hn : fileName value with
      | none => simp [hw, hp, hn] at h
      | some name =>
        have hpl : place = parent ++ [name] := by simpa [hw, hp, hn] using h.symm
        exact .inr ⟨rfl, parent, name, rfl, rfl, hpl⟩

theorem leads_of_follow (h : env.follow value = some place) :
    ∃ first, env.start value = some first ∧
      env.tree.Leads env.limit first (segments value) (namesDirectory value) place := by
  obtain ⟨first, hf, hl⟩ := Option.bind_eq_some_iff.mp h
  exact ⟨first, hf, LinkTree.leads_of_locate hl⟩

theorem not_link_of_follow (h : env.follow value = some place) (text : String) :
    env.tree.look place ≠ some (.link text) := by
  obtain ⟨first, hf, hl⟩ := leads_of_follow h
  exact hl.not_link (by simp [look_start hf]) text

theorem location_of_follow (h : env.follow value = some place) :
    env.location value = some place := by
  obtain ⟨first, hf, hl⟩ := leads_of_follow h
  rw [location, hf]
  exact hl.anyEnd.locate_eq

theorem canonicalize_eq_some : env.canonicalize value = some place ↔
      env.follow value = some place ∧ env.tree.look place ≠ none := by
  rw [canonicalize, Option.filter_eq_some_iff, Option.isSome_iff_ne_none]

theorem Touches.follow (h : env.Touches value place) : env.follow value = some place := by
  rcases h with h | h <;> exact (Option.filter_eq_some_iff.mp h).1

variable {name : String} {parent : Path}

theorem locate_from_parent
    (hp : env.canonicalizeParent value = some parent) (hn : fileName value = some name) :
    ∃ left ≤ env.limit, env.follow value = env.tree.locate left parent [name] (namesDirectory value) ∧
      env.location value = env.tree.locate left parent [name] false := by
  obtain ⟨hl, hes⟩ := Option.filter_eq_some_iff.mp hp
  obtain ⟨first, hf, hl⟩ := Option.bind_eq_some_iff.mp hl
  obtain ⟨hla, -⟩ := Option.filter_eq_some_iff.mp hn
  have hse : segments value = (segments value).dropLast ++ [name] :=
    (List.dropLast_append_getLast? name hla).symm
  obtain ⟨left, hle, heq⟩ := (LinkTree.leads_of_locate hl).locate_append
    (Option.isSome_iff_ne_none.mp hes) (List.cons_ne_nil name [])
  refine ⟨left, hle, ?_, ?_⟩
  · rw [follow, hf, Option.bind_some, hse, heq]
  · rw [location, hf, Option.bind_some, hse, heq]

variable {target scope : String}

theorem pathIsWithin_iff : env.pathIsWithin target scope = true ↔
      ∃ place, env.resolve target = some place ∧
        ∃ base, env.resolve scope = some base ∧ base <+: place := by
  unfold pathIsWithin
  cases env.resolve target <;> cases env.resolve scope <;> simp

theorem fileName_ne (h : fileName value = some name) : name ≠ ".." := by
  simpa using (Option.filter_eq_some_iff.mp h).2

theorem location_of_resolve {base : Path} (hr : env.resolve value = some base)
    (hl : env.location value = some place) :
    place = base ∨ (∃ text, env.tree.look base = some (.link text)) ∧
      ∃ parent name left, base = parent ++ [name] ∧ left ≤ env.limit ∧
        env.tree.Leads left parent [name] false place := by
  rcases resolve_eq_some hr with hw | ⟨-, parent, name, hp, hn, rfl⟩
  · have hsa := location_of_follow (canonicalize_eq_some.mp hw).1
    exact .inl (Option.some.inj (hl.symm.trans hsa))
  · obtain ⟨left, hle, -, heq⟩ := locate_from_parent hp hn
    have hld := LinkTree.leads_of_locate (heq.symm.trans hl)
    rcases (hld.single (fileName_ne hn)).2 with hsa | hli
    · exact .inl hsa
    · exact .inr ⟨hli, parent, name, left, rfl, hle, hld⟩

theorem Touches.missing (h : env.Touches value place)
    (hw : env.canonicalize value = none) (hp : env.canonicalizeParent value = some parent)
    (hn : fileName value = some name) :
    env.tree.look parent = some .dir ∧ env.tree.look place = none ∧
      (place = parent ++ [name] ∨ env.Dangles value parent name place) := by
  have hf := h.follow
  have hm : env.tree.look place = none := by
    by_contra hes
    exact Option.some_ne_none place ((canonicalize_eq_some.mpr ⟨hf, hes⟩).symm.trans hw)
  obtain ⟨left, hle, heq, -⟩ := locate_from_parent hp hn
  have hl := LinkTree.leads_of_locate (heq.symm.trans hf)
  obtain ⟨hdir, hc⟩ := hl.single (fileName_ne hn)
  refine ⟨hdir, hm, hc.imp id fun hli => ?_⟩
  exact ⟨hp, hn, hli, hf, hm⟩

theorem not_link_of_location (h : env.location value = some place) (text : String) :
    env.tree.look place ≠ some (.link text) := by
  obtain ⟨first, hf, hl⟩ := Option.bind_eq_some_iff.mp h
  exact (LinkTree.leads_of_locate hl).not_link (by simp [look_start hf]) text

theorem Dangles.location_eq {base : Path}
    (h : env.Dangles target parent name base) (hr : env.resolve scope = some (parent ++ [name]))
    (hl : env.location scope = some place) : place = base := by
  obtain ⟨text, hli⟩ := h.isLink
  rcases location_of_resolve hr hl with rfl | ⟨-, other, last, left, hsa, hle, hld⟩
  · exact absurd hli (not_link_of_location hl text)
  · obtain ⟨rfl, hla⟩ := List.append_inj' hsa rfl
    obtain rfl := List.singleton_inj.mp hla
    obtain ⟨others, hot, heq, -⟩ := locate_from_parent h.isParent h.isName
    have hb := (LinkTree.leads_of_locate (heq.symm.trans h.leads)).anyEnd.mono hot
    exact Option.some.inj ((hld.mono hle).locate_eq.symm.trans hb.locate_eq)

theorem isPrefix_of_within {touched : Path}
    (hda : ∀ parent name, env.Dangles target parent name touched → parent <+: touched)
    (hw : env.pathIsWithin target scope = true) (hl : env.location scope = some place)
    (hto : env.Touches target touched) : place <+: touched := by
  obtain ⟨found, hta, base, hsc, hb⟩ := pathIsWithin_iff.mp hw
  have hpl := location_of_resolve hsc hl
  rcases resolve_eq_some hta with hwh | ⟨hno, parent, name, hpa, hn, rfl⟩
  · obtain ⟨hf, hes⟩ := canonicalize_eq_some.mp hwh
    obtain rfl := Option.some.inj (hf.symm.trans hto.follow)
    rcases hpl with rfl | ⟨⟨text, hli⟩, -⟩
    · exact hb
    · exact absurd hli (LinkTree.not_link_of_isPrefix hb hes (not_link_of_follow hf) text)
  · obtain ⟨hdir, hm, hc⟩ := hto.missing hno hpa hn
    rcases List.prefix_concat_iff.mp hb with rfl | ha
    · rcases hc with rfl | hd
      · rcases hpl with rfl | ⟨⟨text, hli⟩, -⟩
        · exact hb
        · exact absurd (hm.symm.trans hli) (Option.some_ne_none _).symm
      · obtain rfl := hd.location_eq hsc hl
        exact List.prefix_rfl
    · have hpn := LinkTree.not_link_of_isPrefix (t := env.tree) ha (by simp [hdir]) (by simp [hdir])
      have hp : parent <+: touched := by
        rcases hc with rfl | hd
        · exact List.prefix_append parent [name]
        · exact hda parent name hd
      rcases hpl with rfl | ⟨⟨text, hli⟩, -⟩
      · exact ha.trans hp
      · exact absurd hli (hpn text)

theorem Dangles.exists_scope (h : env.Dangles target parent name place) :
    ∃ scope, env.pathIsWithin target scope = true ∧ env.location scope = some parent := by
  obtain ⟨left, -, heq, -⟩ := locate_from_parent h.isParent h.isName
  have hdir : env.tree.look parent = some .dir :=
    ((LinkTree.leads_of_locate (heq.symm.trans h.leads)).single (fileName_ne h.isName)).1
  have hn : env.canonicalize target = none := by
    rw [canonicalize, h.leads, Option.filter_some, h.missing]
    rfl
  obtain ⟨scope, ha, hse⟩ :=
    exists_segments_eq parent (LinkTree.isName_of_look (t := env.tree) (by simp [hdir]))
  have hf : env.follow scope = some parent := by
    rw [follow, start, if_pos ha, Option.bind_some, hse]
    have hl : env.tree.Leads env.limit [] parent (namesDirectory scope) parent :=
      LinkTree.leads_names hdir
    exact hl.locate_eq
  have hsc : env.resolve scope = some parent := by
    rw [resolve, canonicalize_eq_some.mpr ⟨hf, by simp [hdir]⟩]
    rfl
  have hta : env.resolve target = some (parent ++ [name]) := by
    rw [resolve, hn, h.isParent, h.isName]
    rfl
  refine ⟨scope, pathIsWithin_iff.mpr ⟨_, hta, _, hsc, ?_⟩, location_of_follow hf⟩
  exact List.prefix_append parent [name]

/-- Scopes confine the accesses to a path exactly if it is not a dangling link that leads out of the
directory it stands in. -/
theorem file_scope_confines_iff (env : Surroundings) (target : String) :
    (∀ scope, env.pathIsWithin target scope = true →
      ∀ place, env.location scope = some place →
        ∀ touched, env.Touches target touched → place <+: touched) ↔
      ∀ parent name place, env.Dangles target parent name place → parent <+: place := by
  constructor
  · intro h parent name place hdangles
    obtain ⟨scope, hwithin, hlocation⟩ := hdangles.exists_scope
    refine h scope hwithin parent hlocation place (.inr ?_)
    rw [created, hdangles.leads, Option.filter_some, hdangles.missing]
    rfl
  · intro h scope hwithin place hlocation touched htouches
    exact isPrefix_of_within (fun parent name => h parent name touched) hwithin hlocation htouches

/-- A directory `data` with a link to a file that `etc` does not have. -/
def danglingLook : Path → Option LinkNode
  | [] | ["data"] | ["etc"] => some .dir
  | ["data", "link"] => some (.link "/etc/new")
  | _ => none

theorem danglingLook_append {path : Path} (h : danglingLook (path ++ [name]) ≠ none) :
    danglingLook path = some .dir ∧ IsName name := by
  have hc : path = [] ∧ (name = "data" ∨ name = "etc") ∨ path = ["data"] ∧ name = "link" := by
    match path with
    | [] =>
      unfold danglingLook at h
      split at h <;> simp_all
    | [first] =>
      refine .inr ?_
      unfold danglingLook at h
      split at h <;> simp_all
    | first :: second :: rest =>
      unfold danglingLook at h
      split at h <;> simp_all
  rcases hc with ⟨rfl, rfl | rfl⟩ | ⟨rfl, rfl⟩ <;>
    exact ⟨rfl, by decide, by decide, by decide, by decide⟩

def dangling : Surroundings where
  tree :=
    { look := danglingLook
      root := rfl
      closed := fun _ _ h => (danglingLook_append h).1
      named := fun _ _ h => (danglingLook_append h).2 }
  cwd := none
  cwd_dir := by simp
  limit := 40

/-- Writing `/data/link` is within `/data` and creates `/etc/new`. -/
theorem dangling_link_escapes :
    dangling.pathIsWithin "/data/link" "/data" = true ∧
      dangling.location "/data" = some ["data"] ∧
      dangling.Touches "/data/link" ["etc", "new"] ∧ ¬ ["data"] <+: ["etc", "new"] := by
  refine ⟨by decide +kernel, by decide +kernel, .inr (by decide +kernel), by decide⟩

end Surroundings

end Nivren
