import Nivren.Registry.Serve

/-! What the registry server lets out.

The text of a request, its components and the file that is read are three views of one path. They
agree: a path on the public list has only plain names, and these are the names of the file. So a
request reads public files only, and no archive of a release that the index marks as yanked.
-/

namespace Nivren

open Codec FileTree Program List

namespace Server

/-- The files that everybody may read, by their names behind the registry's own. -/
def Public (names : Path) : Prop :=
  (∃ area ∈ ["index", "packages", "provenance", "authorizations"], ["v1", area] <+: names) ∨
    (["v1", "admin"] <+: names ∧ names.getLast? ≠ some "pending.json") ∨
    names ∈ [["v1", "trust", "root.pub"], ["v1", "trust", "status.json"],
      ["v1", "trust", "advisories.json"]]

def MarkedYanked (formats : Formats) (tree : Node File) (root : Path) (name version : String) : Prop :=
  ∃ bytes metadata,
    Disk.bytesAt (root ++ ["v1", "index", name, version ++ ".json"]) tree = .ok bytes ∧
      formats.fromSlice bytes = .ok metadata ∧ (metadata.index "yanked").asBool = some true

def Withheld (formats : Formats) (tree : Node File) (root names : Path) : Prop :=
  ∃ name version, names = ["v1", "packages", name, version ++ ".nivpkg"] ∧
    MarkedYanked formats tree root name version

def Readable (formats : Formats) (tree : Node File) (root place : Path) : Prop :=
  ∃ names, place = root ++ names ∧ Public names ∧ ¬ Withheld formats tree root names

variable {cwd : Path} {formats : Formats} {registry relative path : String} {tree : Node File}
  {place : Path}

theorem readable_index {root : Path} (h : root ++ ["v1", "index"] <+: place) :
    Readable formats tree root place := by
  obtain ⟨rest, rfl⟩ := h
  refine ⟨["v1", "index"] ++ rest, append_assoc .., .inl ⟨"index", by simp, ?_⟩, ?_⟩
  · exact prefix_append ..
  · rintro ⟨name, version, heq, -⟩
    exact absurd (cons.inj (cons.inj heq).2).1 (by decide)

theorem components_plain
    (h : (components relative).all (fun component => component.name?.any isPublicName) = true) :
    isAbsolute relative = false ∧ ".." ∉ segments relative ∧
      (components relative).filterMap Component.name? = segments relative := by
  have hn : ∀ component ∈ components relative, component.name? ≠ none := by
    intro component hc hno
    have := all_eq_true.mp h component hc
    simp [hno] at this
  unfold components at hn ⊢
  have hst : ∀ component ∈ (if isAbsolute relative then [Component.rootDir]
      else if (relative.toList.splitOn '/').head? = some ['.'] then [.curDir] else []), False := by
    intro component hc
    have hno := hn component (mem_append_left _ hc)
    split at hc
    · exact hno (by simp [mem_singleton.mp hc, Component.name?])
    · split at hc
      · exact hno (by simp [mem_singleton.mp hc, Component.name?])
      · exact absurd hc not_mem_nil
  have hup : ".." ∉ segments relative := by
    intro hup
    exact hn .parentDir (mem_append_right _ (mem_map.mpr ⟨"..", hup, rfl⟩)) rfl
  have hem := eq_nil_iff_forall_not_mem.mpr hst
  refine ⟨?_, hup, ?_⟩
  · by_contra ha
    rw [if_pos (by simpa using ha)] at hem
    cases hem
  · have hse : ∀ part ∈ segments relative,
        (Component.name? ∘ fun part => if part = ".." then .parentDir else .normal part) part =
          some part := by
      intro part hp
      have hne : part ≠ ".." := fun heq => hup (heq ▸ hp)
      rw [Function.comp_apply, if_neg hne, Component.name?]
    rw [hem, nil_append, filterMap_map, filterMap_congr hse, filterMap_some]

variable {contentType : String}

theorem publicPath_eq_some (h : publicPath path = some (relative, contentType)) :
    allowed relative = true ∧
      (components relative).all (fun component => component.name?.any isPublicName) = true := by
  unfold publicPath at h
  split at h
  · cases h
  · split at h
    · dsimp only at h
      split at h
      · rename_i hc
        split at h
        · rename_i ha
          cases h
          exact ⟨ha, hc⟩
        · cases h
      · cases h
    · cases h

theorem isPrefix_segments {start : String} (h : startsWith (start ++ "/") relative = true) :
    segments start <+: segments relative := by
  obtain ⟨rest, hr⟩ := List.isPrefixOf_iff_prefix.mp h
  have hte : relative = start ++ "/" ++ String.ofList rest := by
    apply String.toList_injective
    rw [String.toList_append, ← hr, String.toList_ofList]
  rw [hte, segments_append]
  exact prefix_append ..

theorem slash_mem_of_startsWith {start : String} (h : startsWith (start ++ "/") relative = true) :
    '/' ∈ relative.toList := by
  apply (List.isPrefixOf_iff_prefix.mp h).subset
  rw [String.toList_append]
  exact mem_append_right _ (by decide)

theorem public_of_allowed (h : allowed relative = true) : Public (segments relative) := by
  simp only [allowed, Bool.or_eq_true, Bool.and_eq_true, Bool.not_eq_true'] at h
  rcases h with ((((⟨h, -⟩ | ⟨h, -⟩) | ⟨h, -⟩) | ⟨h, -⟩) | ⟨⟨h, hj⟩, hp⟩) | h
  · exact .inl ⟨"index", by simp, @isPrefix_segments relative "v1/index" h⟩
  · exact .inl ⟨"packages", by simp, @isPrefix_segments relative "v1/packages" h⟩
  · exact .inl ⟨"provenance", by simp, @isPrefix_segments relative "v1/provenance" h⟩
  · exact .inl ⟨"authorizations", by simp, @isPrefix_segments relative "v1/authorizations" h⟩
  · refine .inr (.inl ⟨@isPrefix_segments relative "v1/admin" h, fun hl => ?_⟩)
    -- the last part is what follows the last slash, so the text ends like the part
    obtain ⟨front, last, hte, hse⟩ := exists_last_segment (c := 'j')
      (@slash_mem_of_startsWith relative "v1/admin" h) (isSuffixOf_iff_suffix.mp hj)
      (by decide) (by decide) (by decide)
    rw [hse, List.getLast?_concat, Option.some.injEq] at hl
    have hen : endsWith "/pending.json" relative = true := by
      rw [endsWith, isSuffixOf_iff_suffix, hte, hl, String.append_assoc, String.toList_append]
      exact suffix_append ..
    exact absurd hen (by simp [hp])
  · refine .inr (.inr ?_)
    simp only [contains_iff_mem, mem_cons, not_mem_nil, or_false] at h
    rcases h with rfl | rfl | rfl <;> decide

theorem isName_of_archiveIdentity {name version : String}
    (hn : (components relative).filterMap Component.name? = segments relative)
    (hup : ".." ∉ segments relative) (h : archiveIdentity relative = some (name, version)) :
    IsName name ∧ IsName (version ++ ".json") := by
  unfold archiveIdentity at h
  rw [hn] at h
  split at h
  · rename_i first file rest hse
    obtain ⟨front, hf, heq⟩ := Option.map_eq_some_iff.mp h
    obtain ⟨rfl, rfl⟩ := Prod.mk.inj heq
    obtain ⟨ending, hfi, -⟩ := List.dropSuffix?_eq_some_iff.mp hf
    have hp : ∀ part ∈ [first, file], IsName part := by
      intro part hp
      have hmem : part ∈ segments relative := by
        rw [hse]
        rcases mem_pair.mp hp with rfl | rfl <;> simp
      exact isName_of_mem_segments hmem fun heq => hup (heq ▸ hmem)
    refine ⟨hp first (by simp), isName_of_mem (c := 'j') ?_ (by decide) ?_⟩
    · rw [String.toList_append]
      exact mem_append_right _ (by decide)
    · have hw := (hp file (by simp)).whole
      rw [hfi, mem_append, not_or] at hw
      rw [String.toList_append, mem_append, not_or, String.toList_ofList]
      exact ⟨hw.1, by decide⟩
  · cases h

theorem archiveIdentity_archive {name version : String}
    (hn : (components relative).filterMap Component.name? = segments relative)
    (h : segments relative = ["v1", "packages", name, version ++ ".nivpkg"]) :
    archiveIdentity relative = some (name, version) := by
  have hv : (version ++ ".nivpkg").toList.dropSuffix? ".nivpkg".toList = some version.toList :=
    List.dropSuffix?_eq_some_iff.mpr ⟨_, String.toList_append, beq_self_eq_true _⟩
  rw [archiveIdentity, hn, h]
  split
  · rename_i heq
    simp only [cons.injEq, true_and] at heq
    obtain ⟨rfl, rfl, -⟩ := heq
    rw [hv, Option.map_some, String.ofList_toList]
  · rename_i hot
    exact absurd rfl (hot name (version ++ ".nivpkg") [])

theorem archiveIsYanked_spec
    (h : (components relative).all (fun component => component.name?.any isPublicName) = true)
    (d : Disk) :
    ∃ yanked d', exec (archiveIsYanked cwd formats registry relative) d = (.ok yanked, d') ∧
      d'.tree = d.tree ∧
      (∀ place ∈ d'.touched, place ∈ d.touched ∨ Readable formats tree (resolve cwd registry) place) ∧
      (Withheld formats d.tree (resolve cwd registry) (segments relative) → yanked = true) := by
  obtain ⟨-, hup, hna⟩ := components_plain h
  unfold archiveIsYanked
  cases hid : archiveIdentity relative with
  | none =>
    refine ⟨false, d, rfl, rfl, fun place hp => .inl hp, ?_⟩
    rintro ⟨name, version, hse, -⟩
    exact absurd (archiveIdentity_archive hna hse) (by simp [hid])
  | some identity =>
    obtain ⟨name, version⟩ := identity
    obtain ⟨hn, hf⟩ := isName_of_archiveIdentity hna hup hid
    have hp : resolve cwd (Store.metadataPath name version registry) =
        resolve cwd registry ++ ["v1", "index", name, version ++ ".json"] := by
      rw [Store.metadataPath, @Store.resolve_entry cwd registry "v1/index" "index" name _ (by decide)
        (by decide) (by decide) hn hf]
      simp
    have hin : Readable formats tree (resolve cwd registry)
        (resolve cwd registry ++ ["v1", "index", name, version ++ ".json"]) := by
      refine readable_index ?_
      rw [prefix_append_right_inj]
      exact ⟨[name, version ++ ".json"], rfl⟩
    dsimp only
    rw [hp]
    refine ⟨saysYanked formats (Disk.bytesAt (resolve cwd registry ++
      ["v1", "index", name, version ++ ".json"]) d.tree), _, rfl, rfl, ?_, ?_⟩
    · intro place hmem
      rcases mem_cons.mp hmem with rfl | hmem
      · exact .inr hin
      · exact .inl hmem
    · rintro ⟨other, number, hse, bytes, metadata, hb, hm, hy⟩
      rw [archiveIdentity_archive hna hse, Option.some.injEq, Prod.mk.injEq] at hid
      obtain ⟨rfl, rfl⟩ := hid
      rw [hb, saysYanked, hm]
      simp [hy]

variable {inside : Path → Prop}

theorem stays_boundedRead (h : inside place) : Disk.Stays inside (boundedRead place) := by
  refine .bind (.inspect h) fun fault => ?_
  cases fault with
  | some fault => exact .pure _
  | none => exact .bind (.inspect h) fun _ => .pure _

theorem stays_serveFile (h : inside (resolve cwd (join registry relative))) :
    Disk.Stays inside (serveFile cwd registry relative contentType) := by
  refine .bind (stays_boundedRead h) fun r => ?_
  split <;> exact .pure _

theorem boundedRead_eq_ok {bytes : Bytes} {d d' : Disk}
    (h : exec (boundedRead place) d = (.ok (.ok bytes), d')) :
    Disk.bytesAt place d.tree = .ok bytes := by
  rw [boundedRead, exec_bind, Disk.exec_inspect] at h
  cases hsi : sizeFault place d.tree with
  | some fault => simp [hsi] at h
  | none =>
    rw [hsi] at h
    have hr : (Disk.bytesAt place d.tree).mapError ReadFault.fault = .ok bytes :=
      Except.ok.inj (Prod.mk.inj h).1
    cases hb : Disk.bytesAt place d.tree with
    | error fault => simp [hb, Except.mapError] at hr
    | ok found => simpa [hb, Except.mapError] using hr

theorem serveFile_eq_ok {response : Response} {d d' : Disk}
    (h : exec (serveFile cwd registry relative contentType) d = (.ok response, d'))
    (hc : response.code = 200) :
    Disk.bytesAt (resolve cwd (join registry relative)) d.tree = .ok response.body := by
  obtain ⟨found, d₁, hr, h⟩ := exec_bind_eq_ok h
  split at h
  · obtain rfl := Except.ok.inj (Prod.mk.inj h).1
    exact boundedRead_eq_ok hr
  · obtain rfl := Except.ok.inj (Prod.mk.inj h).1
    simp at hc
  · obtain rfl := Except.ok.inj (Prod.mk.inj h).1
    simp at hc

theorem servePath_spec (d : Disk) :
    (∀ place ∈ (exec (servePath cwd formats registry path) d).2.touched,
      place ∈ d.touched ∨ Readable formats d.tree (resolve cwd registry) place) ∧
    ∀ response d', exec (servePath cwd formats registry path) d = (.ok response, d') →
      response.code = 200 → ∃ place, Readable formats d.tree (resolve cwd registry) place ∧
        Disk.bytesAt place d.tree = .ok response.body := by
  unfold servePath
  cases hpa : publicPath path with
  | none =>
    refine ⟨fun place hp => .inl hp, fun response d' h hco => ?_⟩
    obtain rfl := Except.ok.inj (Prod.mk.inj h).1
    simp at hco
  | some found =>
    obtain ⟨relative, contentType⟩ := found
    obtain ⟨ha, hc⟩ := publicPath_eq_some hpa
    obtain ⟨hre, hup, -⟩ := components_plain hc
    obtain ⟨yanked, d₁, hec, htr, hto, hy⟩ :=
      @archiveIsYanked_spec cwd formats registry relative d.tree hc d
    rw [exec_bind, hec]
    cases yanked with
    | true =>
      refine ⟨hto, fun response d' h hco => ?_⟩
      obtain rfl := Except.ok.inj (Prod.mk.inj h).1
      simp at hco
    | false =>
      have hr : Readable formats d.tree (resolve cwd registry)
          (resolve cwd (join registry relative)) := by
        refine ⟨segments relative, resolve_join_names hre hup, public_of_allowed ha, ?_⟩
        exact fun hw => absurd (hy hw) (by simp)
      refine ⟨fun place hp => ?_, fun response d' h hco => ⟨_, hr, ?_⟩⟩
      · exact (stays_serveFile hr d₁ place hp).elim (hto place) .inr
      · rw [← htr]
        exact serveFile_eq_ok h hco

theorem stays_searchVersions {package : Path} (files : List String)
    (h : ∀ file, inside (package ++ [file])) :
    Disk.Stays inside (searchVersions formats package files) := by
  induction files with
  | nil => exact .pure _
  | cons file rest ih =>
    refine .bind ?_ fun version => .bind ih fun _ => .pure _
    refine .bind (.inspect (h file)) fun isFile => ?_
    split
    · refine .bind (.inspect (h file)) fun r => ?_
      split <;> exact .pure _
    · exact .pure _

theorem stays_searchPackages {index : Path} {query : String}
    (names : List String) (h : ∀ place, index <+: place → inside place) :
    Disk.Stays inside (searchPackages formats index query names) := by
  induction names with
  | nil => exact .pure _
  | cons name rest ih =>
    have hn : inside (index ++ [name]) := h _ (prefix_append ..)
    refine .bind ?_ fun found => .bind ih fun _ => .pure _
    refine .bind (.inspect hn) fun isDir => ?_
    split
    · refine .bind (Disk.moves_orFail (.inspect hn) _) fun files => ?_
      refine .bind (stays_searchVersions files fun file => h _ ?_) fun _ => .pure _
      rw [append_assoc]
      exact prefix_append ..
    · exact .pure _

theorem stays_search {query : String} :
    Disk.Stays (Readable formats tree (resolve cwd registry)) (search cwd formats query registry) := by
  have hin : resolve cwd (join registry "v1/index") = resolve cwd registry ++ ["v1", "index"] :=
    resolve_join_names (by decide) (by decide)
  unfold search
  split
  · unfold searchIndex
    rw [hin]
    refine .bind (.inspect (readable_index prefix_rfl)) fun r => ?_
    split
    · exact .pure _
    · exact .throw _
    · exact .bind (stays_searchPackages _ fun _ => readable_index) fun _ => .pure _
  · exact .throw _

/-- A request reads public files only, and never the archive of a release that is marked as yanked.
When a path of the registry is answered, the answer is the contents of such a file. -/
theorem get_serves_public (cwd : Path) (formats : Formats) (toVec : List SearchResult → Bytes)
    (registry path : String) (d : Disk) :
    (∀ place ∈ (exec (get cwd formats toVec registry path) d).2.touched, place ∈ d.touched ∨
      ∃ names, place = resolve cwd registry ++ names ∧ Public names ∧
        ¬ Withheld formats d.tree (resolve cwd registry) names) ∧
    ∀ response d', exec (get cwd formats toVec registry path) d = (.ok response, d') →
      response.code = 200 → path ≠ "/healthz" → ¬ "/v1/search/".toList <+: path.toList →
        ∃ names, Public names ∧ ¬ Withheld formats d.tree (resolve cwd registry) names ∧
          Disk.bytesAt (resolve cwd registry ++ names) d.tree = .ok response.body := by
  unfold get
  split
  · rename_i hhealth
    exact ⟨fun place hplace => .inl hplace, fun _ _ _ _ hnot => absurd hhealth hnot⟩
  · cases hquery : path.toList.dropPrefix? "/v1/search/".toList with
    | some query =>
      have hsearch : "/v1/search/".toList <+: path.toList :=
        ⟨query, (Text.dropPrefix?_eq_some.mp hquery).symm⟩
      refine ⟨fun place hplace => ?_, fun _ _ _ _ _ hnot => absurd hsearch hnot⟩
      exact Moves.tryCatch (.bind stays_search fun _ => .pure _) (fun _ => .pure _) d place hplace
    | none =>
      obtain ⟨htouched, hanswer⟩ := @servePath_spec cwd formats registry path d
      refine ⟨htouched, fun response d' h hcode _ _ => ?_⟩
      obtain ⟨place, ⟨names, rfl, hpublic, hwithheld⟩, hbytes⟩ := hanswer response d' h hcode
      exact ⟨names, hpublic, hwithheld, hbytes⟩

end Server

end Nivren
