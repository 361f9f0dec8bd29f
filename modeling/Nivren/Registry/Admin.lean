import Nivren.Registry.Publish

/-! Administrative actions of a registry.

An action yanks a release or takes that back. The server writes the accepted request down as pending,
changes the entry of the index, files the action under its generation, stores the generation and takes
the pending request away. What can still be refused after the first of these writes is found out too
late: the request then stays pending, and no other action is accepted.
-/

namespace Nivren

open Codec Program Cabinet

namespace Trust

def adminIdentityValid (package version : String) : Bool :=
  validPublisher package && decide ((utf8 version).length ≤ 64) &&
    (version.toList.splitOn '.').length == 3 && version.toList.all fun c => c.isDigit || c == '.'

def adminBoundsValid (value : RegistryAdminAction) : Bool :=
  value.generation != 0 && decide (value.issuedAt ≤ value.expiresAt) &&
    Text.trim value.reason.toList != [] && decide ((utf8 value.reason).length ≤ 1024) &&
    !value.reason.toList.any isControl

/-- `validate_admin_action`. -/
def validateAdminAction (value : RegistryAdminAction) : Result Unit := do
  require (value.format == 1 && ["yank", "unyank"].contains value.action)
    "invalid registry admin action"
  require (adminIdentityValid value.package value.version) "registry admin package identity is invalid"
  require (adminBoundsValid value) "registry admin bounds are invalid"

def timely (action : RegistryAdminAction) (now : UInt64) : Bool :=
  !(saturatingAdd now 300 < action.issuedAt.toNat || action.expiresAt < now)

/-- `verify_admin_action`. -/
def verifyAdminAction (crypto : Crypto) (action : RegistryAdminAction) (rootPublicKey : Bytes)
    (now minimumGeneration : UInt64) : Result Unit := do
  validateAdminAction action
  verifyDocument crypto rootPublicKey (adminActionBytes action) action.signature
  require (!(action.generation ≤ minimumGeneration))
    "registry admin generation was replayed or rolled back"
  require (timely action now) "registry admin action is stale or future-dated"

end Trust

namespace Server

open Trust

variable (crypto : Crypto) (documents : Documents)

/-- The generation that is stored; none is stored before the first action. -/
def storedGeneration (files : Files) : Result UInt64 :=
  match files .adminGeneration with
  | none => .ok 0
  | some bytes =>
    match ofUtf8 bytes with
    | none => .error (.error (serverError
        "cannot read admin generation: stream did not contain valid UTF-8"))
    | some text =>
      match Commands.parseU64 (Text.trim text.toList) with
      | none => .error (.error (serverError "registry admin generation is invalid"))
      | some generation => .ok generation

/-- `admin_trust_state`. -/
def adminTrustState (files : Files) : Result (Bytes × UInt64) := do
  return (← readRoot files, ← storedGeneration files)

def parseAction (body : Bytes) : Result RegistryAdminAction :=
  if 64 * 1024 < body.length then
    .error (.error (serverError "registry admin action exceeds 64 KiB"))
  else orRefuse "invalid registry admin action" (documents.action body)

/-- The checks of `apply_admin`. -/
def accepted (files : Files) (body : Bytes) (now configuredMinimum : UInt64) :
    Result RegistryAdminAction := do
  let action ← parseAction documents body
  let (root, persisted) ← adminTrustState files
  verifyAdminAction crypto action root now (max configuredMinimum persisted)
  if (files .pending).isSome then throw (.error (serverError
    "registry admin recovery is required before another action"))
  return action

/-- The entry of the index that `set_yanked` changes. -/
def yankable (files : Files) (name version : String) : Result Json := do
  ofExcept (Manifest.validateIdentity name version)
  match files (.metadata name version) with
  | none => .error (.error (packageError
      ("cannot read registry metadata: " ++ faultText .notFound)))
  | some bytes => ofExcept (Store.parseMetadata documents.toFormats name version bytes)

/-- `set_yanked`. -/
def setYanked (name version : String) (yanked : Bool) : OnVault Unit := do
  let files ← read Cabinet.contents
  let metadata ← yankable documents files name version
  put (.metadata name version) (documents.toVecPretty (metadata.setIndex "yanked" (.bool yanked)))

def auditPlacement (action : RegistryAdminAction) : Placement Failure Address Bytes :=
  immutable (.audit action.generation) (documents.actionBytes action)

def generationBytes (generation : UInt64) : Bytes := utf8 (toString generation.toNat ++ "\n")

/-- `complete_admin`. The request that is taken away at the end is pending. -/
def completeAdmin (action : RegistryAdminAction) : OnVault UInt64 := do
  setYanked documents action.package action.version (action.action == "yank")
  place (auditPlacement documents action)
  put .adminGeneration (generationBytes action.generation)
  remove .pending
  return action.generation

/-- `apply_admin`. -/
def applyAdmin (body : Bytes) (now configuredMinimum : UInt64) : OnVault UInt64 := do
  let files ← read Cabinet.contents
  let action ← accepted crypto documents files body now configuredMinimum
  put .pending body
  completeAdmin documents action

/-- The checks of `recover_admin`. -/
def recoverable (files : Files) (now configuredMinimum : UInt64) : Result RegistryAdminAction := do
  let body ← orRefuse "cannot read pending admin action" (readFile files .pending)
  let action ← parseAction documents body
  let (root, persisted) ← adminTrustState files
  verifyAdminAction crypto action root now configuredMinimum
  if action.generation < persisted then throw (.error (serverError
    "pending registry admin action is older than persisted state"))
  return action

/-- `recover_admin`. -/
def recoverAdmin (now configuredMinimum : UInt64) : OnVault UInt64 := do
  let files ← read Cabinet.contents
  let action ← recoverable crypto documents files now configuredMinimum
  completeAdmin documents action

variable {crypto documents} {body : Bytes} {now configuredMinimum : UInt64}
  {action : RegistryAdminAction} {metadata : Json} {failure : Failure} {c : Vault}

def flagged (documents : Documents) (action : RegistryAdminAction) (metadata : Json) (c : Vault) :
    Vault :=
  change (.metadata action.package action.version)
    (some (documents.toVecPretty (metadata.setIndex "yanked" (.bool (action.action == "yank"))))) c

theorem exec_completeAdmin_of_error
    (h : yankable documents c.contents action.package action.version = .error failure) :
    exec (completeAdmin documents action) c = (.error failure, c) := by
  rw [completeAdmin, exec_bind, setYanked, exec_bind, exec_read]
  dsimp only
  rw [exec_bind, h, exec_lift]

theorem exec_completeAdmin_of_ok
    (h : yankable documents c.contents action.package action.version = .ok metadata) :
    exec (completeAdmin documents action) c = exec (do
        place (auditPlacement documents action)
        put .adminGeneration (generationBytes action.generation)
        remove .pending
        return action.generation) (flagged documents action metadata c) := by
  rw [completeAdmin, exec_bind, setYanked, exec_bind, exec_read]
  dsimp only
  rw [h, lift_ok_bind, exec_put, flagged]

theorem contents_flagged {address : Address}
    (h : address ≠ .metadata action.package action.version) :
    (flagged documents action metadata c).contents address = c.contents address :=
  Function.update_of_ne h ..

theorem conflicts_flagged : (auditPlacement documents action).Conflicts
    (flagged documents action metadata c).contents ↔
      (auditPlacement documents action).Conflicts c.contents :=
  conflicts_change (by simp [auditPlacement, immutable])

/-- An action that has been accepted is carried out to its end exactly if the release has an entry in
the index and nothing else is filed under the generation. -/
theorem completeAdmin_isOk :
    (∃ generation c', exec (completeAdmin documents action) c = (.ok generation, c')) ↔
      (∃ metadata, yankable documents c.contents action.package action.version = .ok metadata) ∧
        ¬ (auditPlacement documents action).Conflicts c.contents := by
  cases hen : yankable documents c.contents action.package action.version with
  | error failure =>
    rw [exec_completeAdmin_of_error hen]
    exact iff_of_false (fun ⟨_, _, h⟩ => (nomatch h)) fun ⟨⟨_, h⟩, _⟩ => (nomatch h)
  | ok metadata =>
    rw [exec_completeAdmin_of_ok hen, ← @conflicts_flagged documents action metadata c, exec_bind]
    rcases place_cases (auditPlacement documents action) (flagged documents action metadata c)
      with ⟨hn, hec⟩ | ⟨hth, hec⟩ | ⟨hc, hec⟩
    · rw [hec]
      exact iff_of_true ⟨_, _, rfl⟩ ⟨⟨metadata, rfl⟩, Placement.not_conflicts (.inl hn)⟩
    · rw [hec]
      exact iff_of_true ⟨_, _, rfl⟩ ⟨⟨metadata, rfl⟩, Placement.not_conflicts (.inr hth)⟩
    · rw [hec]
      exact iff_of_false (fun ⟨_, _, h⟩ => (nomatch h)) fun h => h.2 hc

theorem pending_of_completeAdmin_error {c' : Vault}
    (h : exec (completeAdmin documents action) c = (.error failure, c')) :
    c'.contents .pending = c.contents .pending := by
  cases hen : yankable documents c.contents action.package action.version with
  | error failure =>
    rw [exec_completeAdmin_of_error hen] at h
    rw [← (Prod.mk.inj h).2]
  | ok metadata =>
    rw [exec_completeAdmin_of_ok hen, exec_bind] at h
    rcases place_cases (auditPlacement documents action) (flagged documents action metadata c)
      with ⟨hn, hec⟩ | ⟨hth, hec⟩ | ⟨hc, hec⟩
    · rw [hec] at h
      cases h
    · rw [hec] at h
      cases h
    · rw [hec] at h
      rw [← (Prod.mk.inj h).2]
      exact contents_flagged (by simp)

theorem exec_applyAdmin_of_error
    (h : accepted crypto documents c.contents body now configuredMinimum = .error failure) :
    exec (applyAdmin crypto documents body now configuredMinimum) c = (.error failure, c) := by
  rw [applyAdmin, exec_bind, exec_read]
  dsimp only
  rw [exec_bind, h, exec_lift]

theorem exec_applyAdmin_of_ok
    (h : accepted crypto documents c.contents body now configuredMinimum = .ok action) :
    exec (applyAdmin crypto documents body now configuredMinimum) c =
      exec (completeAdmin documents action) (change .pending (some body) c) := by
  rw [applyAdmin, exec_bind, exec_read]
  dsimp only
  rw [h, lift_ok_bind, exec_bind, exec_put]

theorem adminTrustState_eq_ok {files : Files} {root : Bytes} {persisted : UInt64} :
    adminTrustState files = .ok (root, persisted) ↔
      readRoot files = .ok root ∧ storedGeneration files = .ok persisted := by
  rw [adminTrustState]
  constructor
  · intro h
    obtain ⟨key, hkey, h⟩ := bind_eq_ok_iff.mp h
    obtain ⟨generation, hg, h⟩ := bind_eq_ok_iff.mp h
    cases h
    exact ⟨hkey, hg⟩
  · rintro ⟨hr, hp⟩
    rw [hr, hp]
    rfl

theorem accepted_eq_ok {files : Files}
    (h : accepted crypto documents files body now configuredMinimum = .ok action) :
    parseAction documents body = .ok action ∧ files .pending = none ∧
      ∃ root persisted, readRoot files = .ok root ∧ storedGeneration files = .ok persisted ∧
        verifyAdminAction crypto action root now (max configuredMinimum persisted) = .ok () := by
  obtain ⟨found, hp, h⟩ := bind_eq_ok_iff.mp h
  obtain ⟨⟨root, persisted⟩, htr, h⟩ := bind_eq_ok_iff.mp h
  obtain ⟨⟨⟩, hv, h⟩ := bind_eq_ok_iff.mp h
  obtain ⟨hpn, h⟩ := unless_eq_ok_iff.mp h
  cases h
  obtain ⟨hr, hpe⟩ := adminTrustState_eq_ok.mp htr
  exact ⟨hp, by simpa using hpn, root, persisted, hr, hpe, hv⟩

/-- A refused action leaves the registry as it was, exactly if every action that passes the checks has
a release in the index and nothing else is filed under its generation. -/
theorem refused_admin_unchanged_iff (crypto : Crypto) (documents : Documents) (body : Bytes)
    (now configuredMinimum : UInt64) (c : Vault) :
    (∀ failure c', exec (applyAdmin crypto documents body now configuredMinimum) c =
      (.error failure, c') → c'.contents = c.contents) ↔
    ∀ action, accepted crypto documents c.contents body now configuredMinimum = .ok action →
      (∃ metadata, yankable documents c.contents action.package action.version = .ok metadata) ∧
        ¬ (auditPlacement documents action).Conflicts c.contents := by
  cases haccepted : accepted crypto documents c.contents body now configuredMinimum with
  | error failure =>
    refine iff_of_true (fun other c' h => ?_) nofun
    rw [exec_applyAdmin_of_error haccepted] at h
    rw [← (Prod.mk.inj h).2]
  | ok action =>
    have hcompletes := @completeAdmin_isOk documents action (change .pending (some body) c)
    have hpending : c.contents .pending = none := (accepted_eq_ok haccepted).2.1
    rw [exec_applyAdmin_of_ok haccepted]
    constructor
    · rintro h _ ⟨⟩
      refine hcompletes.mp ?_
      rcases hexec : exec (completeAdmin documents action) (change .pending (some body) c)
        with ⟨outcome, c'⟩
      cases outcome with
      | ok generation => exact ⟨generation, c', rfl⟩
      | error failure =>
        -- the request is pending now and was not before
        have hleft := pending_of_completeAdmin_error hexec
        rw [h failure c' hexec, hpending, contents_change, Function.update_self] at hleft
        cases hleft
    · intro h failure c' hexec
      obtain ⟨generation, c'', hok⟩ := hcompletes.mpr (h action rfl)
      rw [hok] at hexec
      cases hexec

def capitalAction : RegistryAdminAction :=
  ⟨1, "yank", "Shapes", "1.0.0", 1, 100, 200, "broken", repeated 128 '0'⟩

def adminDocuments (action : RegistryAdminAction) : Documents :=
  { sampleDocuments with action := fun _ => .ok action }

def emptyRegistry : Vault where
  contents
    | .rootKey => some (utf8 (encodeHex (List.replicate 32 7)))
    | _ => none
  past := []

theorem accepted_capital :
    accepted lenient (adminDocuments capitalAction) emptyRegistry.contents [] 150 0 =
      .ok capitalAction := by
  decide +kernel

/-- The action is refused and stays pending. -/
theorem capital_admin_blocks :
    ∃ failure c', exec (applyAdmin lenient (adminDocuments capitalAction) [] 150 0) emptyRegistry =
        (.error failure, c') ∧
      emptyRegistry.contents .pending = none ∧ c'.contents .pending = some [] := by
  have hrefused : (yankable (adminDocuments capitalAction) emptyRegistry.contents "Shapes"
      "1.0.0").toBool = false := by decide +kernel
  cases hentry : yankable (adminDocuments capitalAction) emptyRegistry.contents "Shapes" "1.0.0" with
  | ok metadata =>
    rw [hentry] at hrefused
    cases hrefused
  | error failure =>
    refine ⟨failure, change .pending (some []) emptyRegistry, ?_, rfl, rfl⟩
    rw [exec_applyAdmin_of_ok accepted_capital]
    exact exec_completeAdmin_of_error hentry

end Server

end Nivren
