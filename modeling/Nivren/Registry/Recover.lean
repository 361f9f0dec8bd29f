import Nivren.Registry.Admin

/-! Recovery of administrative actions.

An action is carried out by writes that are atomic one by one. Each of them can be told from what the
registry holds while the request is pending (`Carries`), so a registry whose server was cut off is one
of a few, and recovery ends where the action would have ended. Over any history of actions, cuts and
recoveries the stored generation grows and no generation is given to two actions.
-/

namespace Nivren

open Codec Program Cabinet Relation Function

namespace Server

open Trust

variable {crypto : Crypto} {documents : Documents} {action : RegistryAdminAction} {body : Bytes}
  {now configuredMinimum : UInt64} {files next : Files} {metadata : Json} {c : Vault}

def Pending (documents : Documents) (action : RegistryAdminAction) (files : Files) : Prop :=
  ∃ body, files .pending = some body ∧ parseAction documents body = .ok action

def markedBytes (documents : Documents) (action : RegistryAdminAction) (metadata : Json) : Bytes :=
  documents.toVecPretty (metadata.setIndex "yanked" (.bool (action.action == "yank")))

inductive Carries (documents : Documents) (action : RegistryAdminAction) : Files → Files → Prop
  | mark {files : Files} {metadata : Json} (hpending : Pending documents action files)
      (hentry : yankable documents files action.package action.version = .ok metadata) :
      Carries documents action files (update files
        (.metadata action.package action.version) (some (markedBytes documents action metadata)))
  | file {files : Files} (hpending : Pending documents action files)
      (hnone : files (.audit action.generation) = none) :
      Carries documents action files (update files
        (.audit action.generation) (some (documents.actionBytes action)))
  | store {files : Files} {persisted : UInt64} (hpending : Pending documents action files)
      (hfiled : files (.audit action.generation) = some (documents.actionBytes action))
      (hpersisted : storedGeneration files = .ok persisted) (hle : persisted ≤ action.generation) :
      Carries documents action files (update files
        .adminGeneration (some (generationBytes action.generation)))
  | finish {files : Files} (hpending : Pending documents action files)
      (hfiled : files (.audit action.generation) = some (documents.actionBytes action))
      (hstored : storedGeneration files = .ok action.generation) :
      Carries documents action files (update files .pending none)

theorem Carries.pending (h : Carries documents action files next) : Pending documents action files := by
  cases h <;> assumption

theorem storedGeneration_congr (h : next .adminGeneration = files .adminGeneration) :
    storedGeneration next = storedGeneration files := by
  rw [storedGeneration, h, storedGeneration]

theorem storedGeneration_update (generation : UInt64) :
    storedGeneration (update files .adminGeneration (some (generationBytes generation))) =
      .ok generation := by
  have hsp : ∀ c ∈ (toString generation.toNat).toList, Text.isWhiteSpace c = false :=
    fun c hc => Text.isWhiteSpace_of_isDigit (Text.isDigit_of_mem_toString hc)
  have htr : Text.trim (toString generation.toNat ++ "\n").toList =
      (toString generation.toNat).toList := by
    rw [String.toList_append]
    exact Text.trim_concat hsp (by decide)
  have hte : ofUtf8 (generationBytes generation) = some (toString generation.toNat ++ "\n") :=
    ofUtf8_eq_some.mpr rfl
  rw [storedGeneration, update_self]
  dsimp only
  rw [hte]
  dsimp only
  rw [htr, Commands.parseU64_toString]

theorem Carries.stored (h : Carries documents action files next) :
    storedGeneration next = storedGeneration files ∨ storedGeneration next = .ok action.generation ∧
        ∃ persisted, storedGeneration files = .ok persisted ∧ persisted ≤ action.generation := by
  cases h with
  | @store persisted hpe hf hp hle =>
    exact .inr ⟨storedGeneration_update _, persisted, hp, hle⟩
  | mark | file | finish => exact .inl (storedGeneration_congr (update_of_ne (by simp) ..))

theorem Pending.update {address : Address} {document : Option Bytes}
    (h : Pending documents action files) (hne : address ≠ .pending) :
    Pending documents action (update files address document) := by
  obtain ⟨body, hb, hp⟩ := h
  exact ⟨body, (update_of_ne hne.symm ..).trans hb, hp⟩

variable {persisted : UInt64}

theorem trail_finish (hp : Pending documents action c.contents)
    (hf : c.contents (.audit action.generation) = some (documents.actionBytes action))
    (hpe : storedGeneration c.contents = .ok persisted)
    (hle : persisted ≤ action.generation) :
    Trail (Carries documents action) c (change .pending none
      (change .adminGeneration (some (generationBytes action.generation)) c)) := by
  have hne : Address.audit action.generation ≠ .adminGeneration := by simp
  refine .change (.change .start (.store hp hf hpe hle)) (.finish ?_ ?_ ?_)
  · exact hp.update (by simp)
  · rw [contents_change, update_of_ne hne, hf]
  · exact storedGeneration_update action.generation

theorem trail_completeAdmin (hpn : Pending documents action c.contents)
    (hpr : storedGeneration c.contents = .ok persisted)
    (hle : persisted ≤ action.generation) :
    Trail (Carries documents action) c (exec (completeAdmin documents action) c).2 := by
  cases hen : yankable documents c.contents action.package action.version with
  | error failure =>
    rw [exec_completeAdmin_of_error hen]
    exact .start
  | ok metadata =>
    have hm : Trail (Carries documents action) c (flagged documents action metadata c) :=
      .change .start (.mark hpn hen)
    have hp : Pending documents action (flagged documents action metadata c).contents :=
      hpn.update (by simp)
    have hpe : storedGeneration (flagged documents action metadata c).contents =
        .ok persisted := (storedGeneration_congr (contents_flagged (by simp))).trans hpr
    rw [exec_completeAdmin_of_ok hen, exec_bind]
    rcases place_cases (auditPlacement documents action) (flagged documents action metadata c)
      with ⟨hn, hec⟩ | ⟨⟨existing, hth, ha⟩, hec⟩ | ⟨-, hec⟩
    · rw [hec]
      refine (hm.change (.file hp hn)).trans (trail_finish ?_ ?_ ?_ hle)
      · exact hp.update (by simp)
      · exact update_self ..
      · exact (storedGeneration_congr (update_of_ne (by simp) ..)).trans hpe
    · rw [hec]
      obtain rfl : existing = documents.actionBytes action := eq_of_beq ha
      exact hm.trans (trail_finish hp hth hpe hle)
    · rw [hec]
      exact hm

def KeepsMarks (formats : Formats) : Prop :=
  ∀ bytes metadata yanked, formats.fromSlice bytes = .ok metadata →
    formats.fromSlice (formats.toVecPretty (metadata.setIndex "yanked" (.bool yanked))) =
      .ok (metadata.setIndex "yanked" (.bool yanked))

/-- The contents of a registry when the action has been carried out, or when it was refused. -/
def ended (documents : Documents) (action : RegistryAdminAction) (files : Files) : Files :=
  (exec (completeAdmin documents action) ⟨files, []⟩).2.contents

def settled (documents : Documents) (action : RegistryAdminAction) (files : Files) : Files :=
  update (update (update files (.audit action.generation) (some (documents.actionBytes action)))
    .adminGeneration (some (generationBytes action.generation))) .pending none

def marked (documents : Documents) (action : RegistryAdminAction) (metadata : Json) (files : Files) :
    Files :=
  update files (.metadata action.package action.version)
    (some (markedBytes documents action metadata))

theorem contents_completeAdmin_of_ok
    (hen : yankable documents c.contents action.package action.version = .ok metadata)
    (hf : ¬ (auditPlacement documents action).Conflicts c.contents) :
    (exec (completeAdmin documents action) c).2.contents =
      settled documents action (marked documents action metadata c.contents) := by
  rw [exec_completeAdmin_of_ok hen, exec_bind]
  rcases place_cases (auditPlacement documents action) (flagged documents action metadata c)
    with ⟨hn, hec⟩ | ⟨⟨existing, hth, ha⟩, hec⟩ | ⟨hc, -⟩
  · rw [hec]
    rfl
  · rw [hec]
    obtain rfl : existing = documents.actionBytes action := eq_of_beq ha
    have hse : update (flagged documents action metadata c).contents
        (.audit action.generation) (some (documents.actionBytes action)) =
          (flagged documents action metadata c).contents := by
      rw [← hth]
      exact update_eq_self ..
    have hm : (flagged documents action metadata c).contents =
        marked documents action metadata c.contents := rfl
    rw [settled, ← hm, hse]
    rfl
  · exact absurd (conflicts_flagged.mp hc) hf

theorem contents_completeAdmin_of_conflict
    (hen : yankable documents c.contents action.package action.version = .ok metadata)
    (hc : (auditPlacement documents action).Conflicts c.contents) :
    (exec (completeAdmin documents action) c).2.contents =
      marked documents action metadata c.contents := by
  rw [exec_completeAdmin_of_ok hen, exec_bind, exec_place_conflict (conflicts_flagged.mpr hc)]
  rfl

variable {version name : String}

theorem parseMetadata_eq_ok {formats : Formats} {bytes : Bytes} :
    Store.parseMetadata formats name version bytes = .ok metadata ↔
      formats.fromSlice bytes = .ok metadata ∧ (metadata.index "format").isInteger 1 = true ∧
        (metadata.index "name").asStr = some name ∧
        (metadata.index "version").asStr = some version := by
  unfold Store.parseMetadata
  cases hp : formats.fromSlice bytes with
  | error reason => simp
  | ok found =>
    dsimp only
    split
    · rename_i hw
      refine iff_of_false (fun h => (nomatch h)) ?_
      rintro ⟨⟨⟩, hf, hn, hv⟩
      simp [hf, hn, hv] at hw
    · rename_i hr
      simp only [Bool.or_eq_true, not_or, Bool.not_eq_true', Bool.not_eq_false, bne_iff_ne,
        ne_eq, not_not] at hr
      constructor
      · rintro ⟨⟩
        exact ⟨rfl, hr.1.1, hr.1.2, hr.2⟩
      · rintro ⟨⟨⟩, -⟩
        rfl

theorem yankable_eq_ok : yankable documents files name version = .ok metadata ↔
      Manifest.validateIdentity name version = .ok () ∧
        ∃ bytes, files (.metadata name version) = some bytes ∧
          Store.parseMetadata documents.toFormats name version bytes = .ok metadata := by
  rw [yankable, bind_eq_ok_iff]
  constructor
  · rintro ⟨⟨⟩, hid, h⟩
    refine ⟨ofExcept_eq_ok.mp hid, ?_⟩
    cases hf : files (.metadata name version) with
    | none => simp [hf] at h
    | some bytes =>
      rw [hf] at h
      exact ⟨bytes, rfl, ofExcept_eq_ok.mp h⟩
  · rintro ⟨hid, bytes, hf, hp⟩
    refine ⟨(), ofExcept_eq_ok.mpr hid, ?_⟩
    rw [hf]
    exact ofExcept_eq_ok.mpr hp

theorem yankable_congr (h : next (.metadata name version) = files (.metadata name version)) :
    yankable documents next name version = yankable documents files name version := by
  rw [yankable, h, yankable]

theorem settled_marked_placed :
    settled documents action (marked documents action metadata (update files
      (.audit action.generation) (some (documents.actionBytes action)))) =
      settled documents action (marked documents action metadata files) ∧
    settled documents action (marked documents action metadata (update files
      .adminGeneration (some (generationBytes action.generation)))) =
      settled documents action (marked documents action metadata files) := by
  constructor <;> funext address <;> simp only [settled, marked, update_apply] <;>
    split_ifs <;> rfl

theorem not_conflicts_of_filed
    (h : files (.audit action.generation) = some (documents.actionBytes action)) :
    ¬ (auditPlacement documents action).Conflicts files := by
  rintro ⟨existing, hes, hd⟩
  obtain rfl := Option.some.inj (h.symm.trans hes)
  simp [auditPlacement, immutable] at hd

section Entry

variable (hen : yankable documents files action.package action.version = .ok metadata)

include hen

theorem yankable_marked (hf : KeepsMarks documents.toFormats) :
    yankable documents (marked documents action metadata files) action.package action.version =
      .ok (metadata.setIndex "yanked" (.bool (action.action == "yank"))) := by
  obtain ⟨hid, bytes, hfi, hp⟩ := yankable_eq_ok.mp hen
  obtain ⟨hr, hfo, hn, hv⟩ := parseMetadata_eq_ok.mp hp
  have hke : ∀ key, key ≠ "yanked" →
      (metadata.setIndex "yanked" (.bool (action.action == "yank"))).index key =
        metadata.index key := fun key hkey => Json.index_setIndex_of_ne hkey metadata
  refine yankable_eq_ok.mpr ⟨hid, markedBytes documents action metadata,
    update_self .., parseMetadata_eq_ok.mpr ⟨hf bytes metadata _ hr, ?_, ?_, ?_⟩⟩
  · rw [hke "format" (by decide), hfo]
  · rw [hke "name" (by decide), hn]
  · rw [hke "version" (by decide), hv]

theorem ended_of_ok (hf : ¬ (auditPlacement documents action).Conflicts files) :
    ended documents action files = settled documents action (marked documents action metadata files) :=
  contents_completeAdmin_of_ok (c := ⟨files, []⟩) hen hf

theorem ended_of_conflict (hc : (auditPlacement documents action).Conflicts files) :
    ended documents action files = marked documents action metadata files :=
  contents_completeAdmin_of_conflict (c := ⟨files, []⟩) hen hc

theorem ended_marked (hf : KeepsMarks documents.toFormats) :
    ended documents action (marked documents action metadata files) =
      ended documents action files := by
  have ha := yankable_marked hen hf
  have hsa : marked documents action (metadata.setIndex "yanked" (.bool (action.action == "yank")))
      (marked documents action metadata files) = marked documents action metadata files := by
    rw [marked, markedBytes, Json.setIndex_setIndex]
    exact update_idem ..
  have hco : (auditPlacement documents action).Conflicts
      (marked documents action metadata files) ↔ (auditPlacement documents action).Conflicts files :=
    @conflicts_flagged documents action metadata ⟨files, []⟩
  by_cases hc : (auditPlacement documents action).Conflicts files
  · rw [ended_of_conflict hen hc, ended_of_conflict ha (hco.mpr hc), hsa]
  · rw [ended_of_ok hen hc, ended_of_ok ha (hco.not.mpr hc), hsa]

end Entry

theorem Carries.ended_eq (hf : KeepsMarks documents.toFormats)
    (h : Carries documents action files next) (hn : Pending documents action next)
    (hen : ∃ metadata, yankable documents files action.package action.version = .ok metadata) :
    ended documents action next = ended documents action files ∧
      ∃ metadata, yankable documents next action.package action.version = .ok metadata := by
  obtain ⟨metadata, hen⟩ := hen
  cases h with
  | @mark found hp hfo =>
    obtain rfl := Except.ok.inj (hen.symm.trans hfo)
    exact ⟨ended_marked hen hf, _, yankable_marked hen hf⟩
  | file hp hno =>
    have hsa : yankable documents (update files (.audit action.generation)
        (some (documents.actionBytes action))) action.package action.version = .ok metadata :=
      (yankable_congr (update_of_ne (by simp) ..)).trans hen
    have hfr : ¬ (auditPlacement documents action).Conflicts files := by
      rintro ⟨existing, hes, -⟩
      exact absurd (hno.symm.trans hes) (Option.some_ne_none _).symm
    refine ⟨?_, metadata, hsa⟩
    rw [ended_of_ok hsa (not_conflicts_of_filed (update_self ..)), settled_marked_placed.1,
      ended_of_ok hen hfr]
  | @store persisted hp hfi hpe hle =>
    have hsa : yankable documents (update files .adminGeneration
        (some (generationBytes action.generation))) action.package action.version = .ok metadata :=
      (yankable_congr (update_of_ne (by simp) ..)).trans hen
    have hst : update files .adminGeneration (some (generationBytes action.generation))
        (.audit action.generation) = some (documents.actionBytes action) :=
      (update_of_ne (by simp) ..).trans hfi
    refine ⟨?_, metadata, hsa⟩
    rw [ended_of_ok hsa (not_conflicts_of_filed hst), settled_marked_placed.2,
      ended_of_ok hen (not_conflicts_of_filed hfi)]
  | finish hp hfi hs =>
    obtain ⟨body, hb, -⟩ := hn
    rw [update_self] at hb
    cases hb

theorem contents_completeAdmin :
    (exec (completeAdmin documents action) c).2.contents = ended documents action c.contents := by
  cases hen : yankable documents c.contents action.package action.version with
  | error failure =>
    rw [ended, exec_completeAdmin_of_error hen,
      exec_completeAdmin_of_error (c := ⟨c.contents, []⟩) hen]
  | ok metadata =>
    by_cases hc : (auditPlacement documents action).Conflicts c.contents
    · rw [contents_completeAdmin_of_conflict hen hc, ended_of_conflict hen hc]
    · rw [contents_completeAdmin_of_ok hen hc, ended_of_ok hen hc]

theorem verifyAdminAction_eq_ok {root : Bytes} {minimum : UInt64} :
    verifyAdminAction crypto action root now minimum = .ok () ↔
      validateAdminAction action = .ok () ∧
        verifyDocument crypto root (adminActionBytes action) action.signature = .ok () ∧
        minimum < action.generation ∧ timely action now = true := by
  simp only [verifyAdminAction, bind_eq_ok_iff, require_eq_ok, exists_const, Bool.not_eq_true',
    decide_eq_false_iff_not, UInt64.not_le]
  constructor
  · rintro ⟨⟨⟩, hv, ⟨⟩, hsi, hb⟩
    exact ⟨hv, hsi, hb⟩
  · rintro ⟨hv, hsi, hb⟩
    exact ⟨(), hv, (), hsi, hb⟩

/-- The registry is one that recovery accepts while there is time. -/
structure Ready (crypto : Crypto) (documents : Documents) (configuredMinimum : UInt64)
    (action : RegistryAdminAction) (files : Files) : Prop where
  pending : Pending documents action files
  valid : validateAdminAction action = .ok ()
  signed : ∃ root, readRoot files = .ok root ∧
    verifyDocument crypto root (adminActionBytes action) action.signature = .ok ()
  above : configuredMinimum < action.generation
  stored : ∃ persisted, storedGeneration files = .ok persisted ∧ persisted ≤ action.generation

theorem recoverable_eq_ok : recoverable crypto documents files now configuredMinimum = .ok action ↔
      Ready crypto documents configuredMinimum action files ∧ timely action now = true := by
  have hre : ∀ body, readFile files .pending = .ok body ↔ files .pending = some body := by
    intro body
    rw [readFile]
    cases files .pending <;> simp
  simp only [recoverable, orRefuse_eq_ok, bind_eq_ok_iff, unless_eq_ok_iff, hre]
  constructor
  · rintro ⟨body, hb, found, hp, ⟨root, persisted⟩, htr, ⟨⟩, hve, hnot, hf⟩
    cases hf
    obtain ⟨hr, hpe⟩ := adminTrustState_eq_ok.mp htr
    obtain ⟨hv, hsi, ha, hti⟩ := verifyAdminAction_eq_ok.mp hve
    exact ⟨⟨⟨body, hb, hp⟩, hv, ⟨root, hr, hsi⟩, ha, persisted, hpe, UInt64.not_lt.mp hnot⟩, hti⟩
  · rintro ⟨⟨⟨body, hb, hp⟩, hv, ⟨root, hr, hsi⟩, ha, persisted, hpe, hle⟩, hti⟩
    exact ⟨body, hb, action, hp, (root, persisted), adminTrustState_eq_ok.mpr ⟨hr, hpe⟩, (),
      verifyAdminAction_eq_ok.mpr ⟨hv, hsi, ha, hti⟩, UInt64.not_lt.mpr hle, rfl⟩

theorem readRoot_congr (h : next .rootKey = files .rootKey) : readRoot next = readRoot files := by
  simp only [readRoot, readText, readFile, h]

theorem Carries.ready (h : Carries documents action files next)
    (hr : Ready crypto documents configuredMinimum action files)
    (hn : Pending documents action next) :
    Ready crypto documents configuredMinimum action next := by
  obtain ⟨root, hro, hsi⟩ := hr.signed
  have hkey : next .rootKey = files .rootKey := by
    cases h <;> exact update_of_ne (by simp) ..
  refine ⟨hn, hr.valid, ⟨root, (readRoot_congr hkey).trans hro, hsi⟩, hr.above, ?_⟩
  rcases h.stored with hsa | ⟨hra, -⟩
  · rw [hsa]
    exact hr.stored
  · exact ⟨action.generation, hra, UInt64.le_refl _⟩

theorem generation_of_accepted
    (h : accepted crypto documents files body now configuredMinimum = .ok action) :
    configuredMinimum < action.generation ∧
      ∃ persisted, storedGeneration files = .ok persisted ∧ persisted < action.generation := by
  obtain ⟨-, -, root, persisted, -, hp, hv⟩ := accepted_eq_ok h
  have ha := (verifyAdminAction_eq_ok.mp hv).2.2.1
  have hmax : max configuredMinimum persisted =
      if configuredMinimum ≤ persisted then persisted else configuredMinimum := rfl
  rw [hmax] at ha
  split at ha
  · rename_i hle
    exact ⟨UInt64.lt_of_le_of_lt hle ha, persisted, hp, ha⟩
  · rename_i hnot
    exact ⟨ha, persisted, hp, UInt64.lt_trans (UInt64.not_le.mp hnot) ha⟩

theorem ready_of_accepted
    (h : accepted crypto documents files body now configuredMinimum = .ok action) :
    Ready crypto documents configuredMinimum action (update files .pending (some body)) := by
  obtain ⟨hp, -, root, _, hr, -, hv⟩ := accepted_eq_ok h
  obtain ⟨hva, hsi, -, -⟩ := verifyAdminAction_eq_ok.mp hv
  obtain ⟨ha, persisted, hpe, hlt⟩ := generation_of_accepted h
  refine ⟨⟨body, update_self .., hp⟩, hva, ⟨root, ?_, hsi⟩, ha, persisted, ?_, UInt64.le_of_lt hlt⟩
  · exact (readRoot_congr (update_of_ne (by simp) ..)).trans hr
  · exact (storedGeneration_congr (update_of_ne (by simp) ..)).trans hpe

theorem passed_completeAdmin (hr : Ready crypto documents configuredMinimum action c.contents) :
    ∃ stores, (exec (completeAdmin documents action) c).2.past = stores ++ c.past ∧
      ∀ store ∈ stores, ReflTransGen (Carries documents action) c.contents store ∧
        Pending documents action store ∧
        ∃ metadata, yankable documents c.contents action.package action.version = .ok metadata := by
  obtain ⟨persisted, hpe, hle⟩ := hr.stored
  obtain ⟨stores, hp, hsr⟩ := (trail_completeAdmin hr.pending hpe hle).past
  refine ⟨stores, hp, fun store hst => ?_⟩
  obtain ⟨hre, next, hn⟩ := hsr store hst
  refine ⟨hre, hn.pending, ?_⟩
  cases hen : yankable documents c.contents action.package action.version with
  | ok metadata => exact ⟨metadata, rfl⟩
  | error failure =>
    rw [exec_completeAdmin_of_error hen] at hp
    have hnil : stores = [] := by simpa using hp
    exact absurd (hnil ▸ hst) List.not_mem_nil

theorem ended_of_reaches (hf : KeepsMarks documents.toFormats)
    (hre : Ready crypto documents configuredMinimum action files)
    (hent : ∃ metadata, yankable documents files action.package action.version = .ok metadata)
    (h : ReflTransGen (Carries documents action) files next)
    (hn : Pending documents action next) :
    ended documents action next = ended documents action files ∧
      Ready crypto documents configuredMinimum action next ∧
      ∃ metadata, yankable documents next action.package action.version = .ok metadata := by
  induction h with
  | refl => exact ⟨rfl, hre, hent⟩
  | tail h hst ih =>
    obtain ⟨hen, hr, hey⟩ := ih hst.pending
    obtain ⟨hsa, het⟩ := hst.ended_eq hf hn hey
    exact ⟨hsa.trans hen, hst.ready hr hn, het⟩

theorem exec_recoverAdmin_of_ok
    (h : recoverable crypto documents c.contents now configuredMinimum = .ok action) :
    exec (recoverAdmin crypto documents now configuredMinimum) c =
      exec (completeAdmin documents action) c := by
  rw [recoverAdmin, exec_bind, exec_read]
  dsimp only
  rw [h, lift_ok_bind]

theorem exec_recoverAdmin_of_error {failure : Failure}
    (h : recoverable crypto documents c.contents now configuredMinimum = .error failure) :
    exec (recoverAdmin crypto documents now configuredMinimum) c = (.error failure, c) := by
  rw [recoverAdmin, exec_bind, exec_read]
  dsimp only
  rw [exec_bind, h, exec_lift]

theorem exec_recoverAdmin_of_none (h : c.contents .pending = none) :
    ∃ failure, exec (recoverAdmin crypto documents now configuredMinimum) c = (.error failure, c) := by
  have hre : readFile c.contents .pending = .error (faultText .notFound) := by rw [readFile, h]
  have hr : recoverable crypto documents c.contents now configuredMinimum = .error (.error
      (serverError ("cannot read pending admin action" ++ ": " ++ faultText .notFound))) := by
    rw [recoverable, hre]
    rfl
  exact ⟨_, exec_recoverAdmin_of_error hr⟩

theorem Ready.recovered (h : Ready crypto documents configuredMinimum action files)
    (hti : timely action now = true) :
    (exec (recoverAdmin crypto documents now configuredMinimum) ⟨files, []⟩).2.contents =
      ended documents action files := by
  rw [exec_recoverAdmin_of_ok (c := ⟨files, []⟩) (recoverable_eq_ok.mpr ⟨h, hti⟩)]
  rfl

theorem recovered_ended (hf : KeepsMarks documents.toFormats)
    (hr : Ready crypto documents configuredMinimum action files)
    (hti : timely action now = true) :
    (exec (recoverAdmin crypto documents now configuredMinimum)
      ⟨ended documents action files, []⟩).2.contents = ended documents action files := by
  cases hen : yankable documents files action.package action.version with
  | error failure =>
    have hsa : ended documents action files = files := by
      rw [ended, exec_completeAdmin_of_error (c := ⟨files, []⟩) hen]
    rw [hsa, hr.recovered hti, hsa]
  | ok metadata =>
    by_cases hc : (auditPlacement documents action).Conflicts files
    · have hp : Pending documents action (marked documents action metadata files) :=
        hr.pending.update (by simp)
      have hre : Ready crypto documents configuredMinimum action
          (marked documents action metadata files) :=
        (Carries.mark hr.pending hen).ready hr hp
      rw [ended_of_conflict hen hc, Ready.recovered hre hti]
      exact (ended_marked hen hf).trans (ended_of_conflict hen hc)
    · have hn : settled documents action (marked documents action metadata files) .pending =
          none := update_self ..
      obtain ⟨failure, hec⟩ := @exec_recoverAdmin_of_none crypto documents now configuredMinimum
        ⟨settled documents action (marked documents action metadata files), []⟩ hn
      rw [ended_of_ok hen hc, hec]

theorem passed_applyAdmin
    (ha : accepted crypto documents files body now configuredMinimum = .ok action) :
    ∃ stores, passed (applyAdmin crypto documents body now configuredMinimum) files =
        files :: (stores ++ [ended documents action (update files .pending (some body))]) ∧
      ∀ store ∈ stores, ReflTransGen (Carries documents action)
          (update files .pending (some body)) store ∧ Pending documents action store ∧
          ∃ metadata, yankable documents (update files .pending (some body))
            action.package action.version = .ok metadata := by
  have hr := ready_of_accepted ha
  obtain ⟨stores, hp, hst⟩ := passed_completeAdmin (c := change .pending (some body) ⟨files, []⟩) hr
  refine ⟨stores.reverse, ?_, fun store hsr => hst store (List.mem_reverse.mp hsr)⟩
  rw [passed, exec_applyAdmin_of_ok (c := ⟨files, []⟩) ha, hp, contents_completeAdmin]
  simp [change]

/-- A run that is cut off before its first write leaves what it found, and nothing is recovered. One
that is cut off later is recovered to the end it would have had. -/
theorem recovered_cut (hf : KeepsMarks documents.toFormats)
    (ha : accepted crypto documents files body now configuredMinimum = .ok action)
    {later : UInt64} (hti : timely action later = true) {n : ℕ} {store : Files}
    (hcut : (passed (applyAdmin crypto documents body now configuredMinimum) files)[n]? = some store) :
    (exec (recoverAdmin crypto documents later configuredMinimum) ⟨store, []⟩).2.contents =
      if n = 0 then files
      else (exec (applyAdmin crypto documents body now configuredMinimum) ⟨files, []⟩).2.contents := by
  have hr := ready_of_accepted ha
  have hend : (exec (applyAdmin crypto documents body now configuredMinimum)
      ⟨files, []⟩).2.contents = ended documents action (update files .pending (some body)) := by
    rw [exec_applyAdmin_of_ok (c := ⟨files, []⟩) ha, contents_completeAdmin, contents_change]
  obtain ⟨stores, hp, hst⟩ := passed_applyAdmin ha
  rw [hp] at hcut
  cases n with
  | zero =>
    cases hcut
    obtain ⟨failure, hec⟩ := @exec_recoverAdmin_of_none crypto documents later configuredMinimum
      ⟨files, []⟩ (accepted_eq_ok ha).2.1
    rw [hec, if_pos rfl]
  | succ n =>
    rw [if_neg (Nat.succ_ne_zero n), hend]
    rcases List.mem_append.mp (List.mem_of_getElem? hcut) with hsr | hl
    · obtain ⟨hre, hpe, het⟩ := hst store hsr
      obtain ⟨hen, hrd, -⟩ := ended_of_reaches hf hr het hre hpe
      rw [hrd.recovered hti, hen]
    · rw [List.mem_singleton.mp hl]
      exact recovered_ended hf hr hti

end Server

end Nivren
