import Nivren.Registry.Recover

/-! Histories of a registry.

A history is a sequence of actions and recoveries, each of which may be cut off after any of its
writes. What one write can do is known, so it is shown once for a write what then holds in every
history.
-/

namespace Nivren

open Codec Program Cabinet Relation List

namespace Server

open Trust

inductive Event
  | apply (body : Bytes) (now configuredMinimum : UInt64)
  | recover (now configuredMinimum : UInt64)

variable (crypto : Crypto) (documents : Documents)

def Event.run : Event → OnVault UInt64
  | .apply body now configuredMinimum => applyAdmin crypto documents body now configuredMinimum
  | .recover now configuredMinimum => recoverAdmin crypto documents now configuredMinimum

/-- The action that an event brings in when it gets as far as its first write. -/
def Event.accepts (files : Files) (n : ℕ) : Event → List RegistryAdminAction
  | .apply body now configuredMinimum =>
    if n = 0 then []
    else (accepted crypto documents files body now configuredMinimum).toOption.toList
  | .recover _ _ => []

def Event.applies (files : Files) (n : ℕ) (event : Event) : List UInt64 :=
  if n + 1 = (passed (event.run crypto documents) files).length then
    (exec (event.run crypto documents) ⟨files, []⟩).1.toOption.toList
  else []

/-- What a registry can come to, with the actions that were accepted and the generations that were
applied on the way. Each event is cut off after some number of writes, or not at all. -/
inductive History (first : Files) : List RegistryAdminAction → List UInt64 → Files → Prop
  | start : History first [] [] first
  | event {actions : List RegistryAdminAction} {applied : List UInt64} {files store : Files} {n : ℕ}
      (event : Event) (h : History first actions applied files)
      (hcut : (passed (event.run crypto documents) files)[n]? = some store) :
      History first (actions ++ event.accepts crypto documents files n)
        (applied ++ event.applies crypto documents files n) store

variable {crypto documents} {first files next : Files} {actions : List RegistryAdminAction}
  {applied : List UInt64} {action : RegistryAdminAction} {body : Bytes}
  {now configuredMinimum : UInt64}

/-- The action has its audit document, and its generation is stored or has been overtaken. -/
def Done (documents : Documents) (action : RegistryAdminAction) (files : Files) : Prop :=
  files (.audit action.generation) = some (documents.actionBytes action) ∧
    ∃ persisted, storedGeneration files = .ok persisted ∧ action.generation ≤ persisted

structure Sound (documents : Documents) (first : Files) (actions : List RegistryAdminAction)
    (applied : List UInt64) (files : Files) : Prop where
  audits : ∀ generation document, first (.audit generation) = some document →
    files (.audit generation) = some document
  grows : ∀ persisted, storedGeneration first = .ok persisted →
    ∃ later, storedGeneration files = .ok later ∧ persisted ≤ later
  increasing : (actions.map RegistryAdminAction.generation).Pairwise (· < ·)
  done : ∀ action ∈ actions, Done documents action files ∨ Pending documents action files
  once : applied.Pairwise (· < ·)
  stored : ∀ generation ∈ applied,
    ∃ persisted, storedGeneration files = .ok persisted ∧ generation ≤ persisted
  filed : ∀ generation ∈ applied, ∃ document, files (.audit generation) = some document
  ahead : ∀ generation ∈ applied, ∀ action, Pending documents action files →
    generation < action.generation

theorem Sound.start (files : Files) : Sound documents files [] [] files where
  audits _ _ h := h
  grows persisted h := ⟨persisted, h, UInt64.le_refl _⟩
  increasing := .nil
  done _ h := absurd h not_mem_nil
  once := .nil
  stored _ h := absurd h not_mem_nil
  filed _ h := absurd h not_mem_nil
  ahead _ h := absurd h not_mem_nil

variable {generation : UInt64}

theorem Carries.audit (h : Carries documents action files next)
    {document : Bytes} (hd : files (.audit generation) = some document) :
    next (.audit generation) = some document := by
  cases h with
  | file hp hn =>
    have hne : Address.audit generation ≠ .audit action.generation := by
      intro heq
      rw [heq, hn] at hd
      cases hd
    rw [Function.update_of_ne hne, hd]
  | mark | store | finish => exact (Function.update_of_ne (by simp) ..).trans hd

theorem Carries.grows (h : Carries documents action files next) {persisted : UInt64}
    (hp : storedGeneration files = .ok persisted) :
    ∃ later, storedGeneration next = .ok later ∧ persisted ≤ later := by
  rcases h.stored with hsa | ⟨hr, stored, hs, hle⟩
  · exact ⟨persisted, hsa.trans hp, UInt64.le_refl _⟩
  · obtain rfl := Except.ok.inj (hp.symm.trans hs)
    exact ⟨action.generation, hr, hle⟩

theorem Carries.done (h : Carries documents action files next) {other : RegistryAdminAction}
    (hd : Done documents other files) : Done documents other next := by
  obtain ⟨hf, persisted, hp, hle⟩ := hd
  obtain ⟨later, hl, hg⟩ := h.grows hp
  exact ⟨h.audit hf, later, hl, UInt64.le_trans hle hg⟩

variable {other : RegistryAdminAction}

theorem Pending.unique (h : Pending documents action files)
    (h' : Pending documents other files) : other = action := by
  obtain ⟨body, hbo, hpa⟩ := h
  obtain ⟨body', hb, hp⟩ := h'
  obtain rfl := Option.some.inj (hbo.symm.trans hb)
  exact Except.ok.inj (hp.symm.trans hpa)

theorem Carries.pending_or_done (h : Carries documents action files next) :
    Done documents action next ∨ Pending documents action next := by
  have hd := fun hf => @Carries.done documents files next action h action hf
  cases h with
  | mark hp | file hp | store hp => exact .inr (hp.update (by simp))
  | finish hp hf hs => exact .inl (hd ⟨hf, _, hs, UInt64.le_refl _⟩)

theorem Carries.pending_of_next (h : Carries documents action files next)
    (hn : Pending documents other next) :
    Pending documents other files := by
  obtain ⟨body, hb, hp⟩ := hn
  cases h with
  | mark | file | store =>
    rw [Function.update_of_ne (by simp)] at hb
    exact ⟨body, hb, hp⟩
  | finish =>
    rw [Function.update_self] at hb
    cases hb

theorem Sound.carries (h : Sound documents first actions applied files)
    (hst : Carries documents action files next) :
    Sound documents first actions applied next where
  audits generation document hd := hst.audit (h.audits generation document hd)
  grows persisted hp := by
    obtain ⟨stored, hs, hle⟩ := h.grows persisted hp
    obtain ⟨later, hl, hle'⟩ := hst.grows hs
    exact ⟨later, hl, UInt64.le_trans hle hle'⟩
  increasing := h.increasing
  done other hot := by
    rcases h.done other hot with hdo | hpe
    · exact .inl (hst.done hdo)
    · obtain rfl := hst.pending.unique hpe
      exact hst.pending_or_done
  once := h.once
  stored generation hg := by
    obtain ⟨stored, hs, hle⟩ := h.stored generation hg
    obtain ⟨later, hl, hle'⟩ := hst.grows hs
    exact ⟨later, hl, UInt64.le_trans hle hle'⟩
  filed generation hg := by
    obtain ⟨document, hd⟩ := h.filed generation hg
    exact ⟨document, hst.audit hd⟩
  ahead generation hg other hn := h.ahead generation hg other (hst.pending_of_next hn)

theorem Sound.reaches (h : Sound documents first actions applied files)
    (hst : ReflTransGen (Carries documents action) files next) :
    Sound documents first actions applied next := by
  induction hst with
  | refl => exact h
  | tail _ hsp ih => exact ih.carries hsp

theorem Sound.accept (h : Sound documents first actions applied files)
    (ha : accepted crypto documents files body now configuredMinimum = .ok action) :
    Sound documents first (actions ++ [action]) applied
      (Function.update files .pending (some body)) := by
  obtain ⟨hp, hn, -⟩ := accepted_eq_ok ha
  obtain ⟨-, persisted, hpr, hlt⟩ := generation_of_accepted ha
  have hpe : Pending documents action (Function.update files .pending (some body)) :=
    ⟨body, Function.update_self .., hp⟩
  have hs : storedGeneration (Function.update files .pending (some body)) =
      storedGeneration files := storedGeneration_congr (Function.update_of_ne (by simp) ..)
  have hau : ∀ generation, Function.update files .pending (some body) (.audit generation) =
      files (.audit generation) := fun generation => Function.update_of_ne (by simp) ..
  have hab : ∀ generation, (∃ persisted, storedGeneration files = .ok persisted ∧
      generation ≤ persisted) → generation < action.generation := by
    rintro generation ⟨stored, hso, hle⟩
    obtain rfl := Except.ok.inj (hpr.symm.trans hso)
    exact UInt64.lt_of_le_of_lt hle hlt
  -- nothing is pending, so all actions before are done
  have hb : ∀ other ∈ actions, Done documents other files := by
    intro other hot
    refine (h.done other hot).resolve_right ?_
    rintro ⟨found, hf, -⟩
    rw [hn] at hf
    cases hf
  refine ⟨fun generation document hd => ?_, fun stored hso => ?_, ?_, ?_, h.once,
    fun generation hg => ?_, fun generation hg => ?_,
    fun generation hg other hot => ?_⟩
  · rw [hau, h.audits generation document hd]
  · rw [hs]
    exact h.grows stored hso
  · rw [map_append, pairwise_append]
    refine ⟨h.increasing, pairwise_singleton .., fun generation hg last hl => ?_⟩
    obtain ⟨other, hot, rfl⟩ := mem_map.mp hg
    obtain rfl := mem_singleton.mp hl
    exact hab _ (hb other hot).2
  · intro other hot
    rcases mem_append.mp hot with hot | hl
    · obtain ⟨hfi, hr⟩ := hb other hot
      exact .inl ⟨(hau _).trans hfi, by rwa [hs]⟩
    · rw [mem_singleton.mp hl]
      exact .inr hpe
  · rw [hs]
    exact h.stored generation hg
  · rw [hau]
    exact h.filed generation hg
  · rw [hpe.unique hot]
    exact hab _ (h.stored generation hg)

theorem Sound.apply (h : Sound documents first actions applied files)
    (ha : ∀ other ∈ applied, other < generation) (hn : files .pending = none)
    (hs : storedGeneration files = .ok generation)
    (hf : ∃ document, files (.audit generation) = some document) :
    Sound documents first actions (applied ++ [generation]) files := by
  refine ⟨h.audits, h.grows, h.increasing, h.done, ?_, ?_, ?_, ?_⟩
  · rw [pairwise_append]
    refine ⟨h.once, pairwise_singleton .., fun other hot last hl => ?_⟩
    rw [mem_singleton.mp hl]
    exact ha other hot
  · intro other hot
    rcases mem_append.mp hot with hot | hl
    · exact ⟨generation, hs, UInt64.le_of_lt (ha other hot)⟩
    · exact ⟨generation, hs, UInt64.le_of_eq (mem_singleton.mp hl)⟩
  · intro other hot
    rcases mem_append.mp hot with hot | hl
    · exact h.filed other hot
    · rwa [mem_singleton.mp hl]
  · rintro other - action ⟨body, hb, -⟩
    rw [hn] at hb
    cases hb

variable {c' : Vault}

theorem applied_of_completeAdmin {c : Vault}
    (h : exec (completeAdmin documents action) c = (.ok generation, c')) :
    generation = action.generation ∧ c'.contents .pending = none ∧
      storedGeneration c'.contents = .ok action.generation ∧
      c'.contents (.audit action.generation) = some (documents.actionBytes action) := by
  obtain ⟨⟨metadata, hen⟩, hf⟩ := completeAdmin_isOk.mp ⟨generation, c', h⟩
  have hc := contents_completeAdmin_of_ok hen hf
  rw [h] at hc
  refine ⟨?_, ?_, ?_, ?_⟩
  · rw [exec_completeAdmin_of_ok hen, exec_bind] at h
    rcases place_cases (auditPlacement documents action) (flagged documents action metadata c)
      with ⟨-, hec⟩ | ⟨-, hec⟩ | ⟨hco, -⟩
    · rw [hec] at h
      exact (Except.ok.inj (Prod.mk.inj h).1).symm
    · rw [hec] at h
      exact (Except.ok.inj (Prod.mk.inj h).1).symm
    · exact absurd (conflicts_flagged.mp hco) hf
  · rw [hc]
    exact Function.update_self ..
  · rw [hc, settled, storedGeneration_congr (Function.update_of_ne (by simp) ..)]
    exact storedGeneration_update action.generation
  · rw [hc, settled, Function.update_of_ne (by simp), Function.update_of_ne (by simp),
      Function.update_self]

variable {result : Result UInt64}

theorem Sound.completeAdmin {c : Vault} (h : Sound documents first actions applied c.contents)
    (hr : Ready crypto documents configuredMinimum action c.contents)
    (hec : exec (Server.completeAdmin documents action) c = (result, c')) :
    (∃ stores, c'.past = stores ++ c.past ∧
      ∀ store ∈ stores, Sound documents first actions applied store) ∧
      Sound documents first actions (applied ++ result.toOption.toList) c'.contents := by
  obtain ⟨persisted, hpe, hle⟩ := hr.stored
  have htr := trail_completeAdmin hr.pending hpe hle
  rw [hec] at htr
  obtain ⟨stores, hp, hst⟩ := htr.past
  have hend := h.reaches htr.reaches
  refine ⟨⟨stores, hp, fun store hsr => h.reaches (hst store hsr).1⟩, ?_⟩
  cases result with
  | error failure => simpa [Except.toOption] using hend
  | ok generation =>
    obtain ⟨rfl, hn, hs, hf⟩ := applied_of_completeAdmin hec
    have ha := fun other hot => h.ahead other hot action hr.pending
    exact hend.apply ha hn hs ⟨_, hf⟩

theorem Event.run_cases (event : Event) (files : Files) :
    (∃ failure, exec (event.run crypto documents) ⟨files, []⟩ = (.error failure, ⟨files, []⟩)) ∨
      (∃ now configuredMinimum action, event = .recover now configuredMinimum ∧
        Ready crypto documents configuredMinimum action files ∧
        exec (event.run crypto documents) ⟨files, []⟩ =
          exec (Server.completeAdmin documents action) ⟨files, []⟩) ∨
      ∃ body now configuredMinimum action, event = .apply body now configuredMinimum ∧
        accepted crypto documents files body now configuredMinimum = .ok action ∧
        exec (event.run crypto documents) ⟨files, []⟩ =
          exec (Server.completeAdmin documents action) (change .pending (some body) ⟨files, []⟩) := by
  cases event with
  | apply body now configuredMinimum =>
    cases ha : accepted crypto documents files body now configuredMinimum with
    | error failure => exact .inl ⟨failure, exec_applyAdmin_of_error (c := ⟨files, []⟩) ha⟩
    | ok action =>
      exact .inr (.inr ⟨body, now, configuredMinimum, action, rfl, ha,
        exec_applyAdmin_of_ok (c := ⟨files, []⟩) ha⟩)
  | recover now configuredMinimum =>
    cases hf : recoverable crypto documents files now configuredMinimum with
    | error failure => exact .inl ⟨failure, exec_recoverAdmin_of_error (c := ⟨files, []⟩) hf⟩
    | ok action =>
      exact .inr (.inl ⟨now, configuredMinimum, action, rfl, (recoverable_eq_ok.mp hf).1,
        exec_recoverAdmin_of_ok (c := ⟨files, []⟩) hf⟩)

variable {n : ℕ}

theorem Event.applies_of_exec {event : Event}
    (h : exec (event.run crypto documents) ⟨files, []⟩ = (result, c')) :
    event.applies crypto documents files n =
      if n = c'.past.length then result.toOption.toList else [] := by
  simp [Event.applies, passed, h]

theorem Sound.cut {stores : List Files} {last store : Files} {result : List UInt64}
    (hst : ∀ store ∈ stores, Sound documents first actions applied store)
    (hl : Sound documents first actions (applied ++ result) last)
    (hcut : (stores ++ [last])[n]? = some store) :
    Sound documents first actions (applied ++ if n = stores.length then result else []) store := by
  rw [List.getElem?_append] at hcut
  split at hcut
  · rename_i hlt
    rw [if_neg (Nat.ne_of_lt hlt), append_nil]
    exact hst store (mem_of_getElem? hcut)
  · rename_i hnot
    rw [List.getElem?_singleton] at hcut
    split at hcut
    · cases hcut
      rwa [if_pos (by omega)]
    · cases hcut

theorem Sound.event {event : Event} {store : Files}
    (h : Sound documents first actions applied files)
    (hcut : (passed (event.run crypto documents) files)[n]? = some store) :
    Sound documents first (actions ++ event.accepts crypto documents files n)
      (applied ++ event.applies crypto documents files n) store := by
  obtain ⟨result, c', hrun⟩ : ∃ result c', exec (event.run crypto documents) ⟨files, []⟩ =
    (result, c') := ⟨_, _, rfl⟩
  rw [Event.applies_of_exec hrun]
  rw [passed, hrun] at hcut
  rcases event.run_cases files with ⟨failure, hec⟩ | ⟨now, minimum, action, rfl, hr, hec⟩ |
    ⟨body, now, minimum, action, rfl, ha, hec⟩
  · rw [hrun] at hec
    cases hec
    obtain ⟨rfl, rfl⟩ : n = 0 ∧ store = files := by
      cases n <;> simp_all
    cases event <;> simpa [Event.accepts, Except.toOption] using h
  · obtain ⟨⟨stores, hp, hst⟩, hend⟩ := h.completeAdmin hr (hec.symm.trans hrun)
    rw [append_nil] at hp
    rw [Event.accepts, append_nil, hp, ← length_reverse]
    exact Sound.cut (fun store hsr => hst store (mem_reverse.mp hsr)) hend (hp ▸ hcut)
  · have hac := h.accept ha
    obtain ⟨⟨stores, hp, hst⟩, hend⟩ := hac.completeAdmin
      (c := change .pending (some body) ⟨files, []⟩) (ready_of_accepted ha)
      (hec.symm.trans hrun)
    have hl : c'.past.length = stores.reverse.length + 1 := by simp [hp, change]
    have hli : c'.past.reverse = files :: stores.reverse := by simp [hp, change]
    rw [Event.accepts, ha, hl]
    rw [hli] at hcut
    cases n with
    | zero =>
      cases hcut
      simpa using h
    | succ n =>
      rw [if_neg (Nat.succ_ne_zero n)]
      simp only [Nat.add_right_cancel_iff]
      exact Sound.cut (fun store hsr => hst store (mem_reverse.mp hsr)) hend hcut

theorem History.sound (h : History crypto documents first actions applied files) :
    Sound documents first actions applied files := by
  induction h with
  | start => exact .start first
  | event event _ hcut ih => exact ih.event hcut

def indexEntry (yanked : Bool) : Json :=
  .object [("format", .integer 1), ("name", .string "shapes"), ("version", .string "1.0.0"),
    ("yanked", .bool yanked)]

def yankAction : RegistryAdminAction :=
  ⟨1, "yank", "shapes", "1.0.0", 1, 100, 200, "broken", repeated 128 '0'⟩

def markDocuments : Documents :=
  { adminDocuments yankAction with
    fromSlice := fun bytes => .ok (indexEntry (bytes == [1]))
    toVecPretty := fun metadata => if (metadata.index "yanked").asBool = some true then [1] else [0] }

def oneRelease : Files
  | .rootKey => some (utf8 (encodeHex (replicate 32 7)))
  | .metadata _ _ => some [0]
  | _ => none

theorem setIndex_indexEntry (yanked marked : Bool) :
    (indexEntry yanked).setIndex "yanked" (.bool marked) = indexEntry marked := by
  have hf : ¬ "yanked" < "format" := by decide
  have hn : ¬ "yanked" < "name" := by decide
  have hv : ¬ "yanked" < "version" := by decide
  simp [indexEntry, Json.setIndex, Json.insertField, hf, hn, hv]

theorem keepsMarks_markDocuments : KeepsMarks markDocuments.toFormats := by
  intro bytes metadata yanked h
  obtain rfl : indexEntry (bytes == [1]) = metadata := Except.ok.inj h
  rw [setIndex_indexEntry]
  cases yanked <;> rfl

theorem accepted_yank : accepted lenient markDocuments oneRelease [] 150 0 = .ok yankAction := by
  decide +kernel

theorem yank_uninterrupted : (exec (applyAdmin lenient markDocuments [] 150 0)
    ⟨oneRelease, []⟩).2.contents (.metadata "shapes" "1.0.0") = some [1] := by
  decide +kernel

end Server

end Nivren
