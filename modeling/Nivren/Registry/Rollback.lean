import Nivren.Registry.Gate

/-! The generation of a registry.

A trusted install compares the status of the registry with the generation that earlier installs have
stored, and stores its own. One file holds one generation, under the key of the registry it came from.
The comparison is made for every release: an install without dependencies makes none, and an install
from another registry takes the place of what was stored.
-/

namespace Nivren.Commands

open Codec FileTree Program List
open Trust (encodeHex lenient sampleRelease statusBytes)

variable {α : Type} {processId : ℕ} {crypto : Trust.Crypto} {root : Path} {manifest : Manifest}
    {trusted : Trusted}
  {fuel : ℕ} {d : Disk} {s : Online}

theorem encodeHex_ne_nil {bytes : Bytes} (h : bytes ≠ []) : (encodeHex bytes).toList ≠ [] := by
  obtain ⟨byte, rest, rfl⟩ := exists_cons_of_ne_nil h
  simp [encodeHex]

variable {key : Bytes}

theorem words_generationText (hkey : key ≠ []) (status : Trust.RegistryStatus) :
    Text.splitWhitespace (generationText (encodeHex key) status).toList =
      [(encodeHex key).toList, (toString status.generation.toNat).toList,
        (toString status.issuedAt.toNat).toList] := by
  have hn : ∀ n : ℕ, (toString n).toList ≠ [] ∧
      ∀ c ∈ (toString n).toList, Text.isWhiteSpace c = false := by
    intro n
    constructor
    · rw [Nat.toString_eq_repr, Nat.toList_repr]
      exact Nat.toDigits_ne_nil
    · exact fun c hc => Text.isWhiteSpace_of_isDigit (Text.isDigit_of_mem_toString hc)
  have hsp : " ".toList = [' '] := by decide
  have hend : "\n".toList = ['\n'] := by decide
  have hch : (generationText (encodeHex key) status).toList =
      (encodeHex key).toList ++ ' ' :: ((toString status.generation.toNat).toList ++
        ' ' :: ((toString status.issuedAt.toNat).toList ++ '\n' :: [])) := by
    simp only [generationText, String.toList_append, hsp, hend, append_assoc,
      cons_append, nil_append]
  rw [hch, Text.splitWhitespace_word (encodeHex_ne_nil hkey) (fun c => Trust.isWhiteSpace_encodeHex)
      (by decide),
    Text.splitWhitespace_word (hn _).1 (hn _).2 (by decide),
    Text.splitWhitespace_word (hn _).1 (hn _).2 (by decide)]
  rfl

theorem persisted_generationText (hkey : key ≠ []) (status : Trust.RegistryStatus) :
    (persisted (encodeHex key) (some (generationText (encodeHex key) status))).1 =
      status.generation := by
  rw [persisted, Option.bind_some, words_generationText hkey, storedEntry, if_pos rfl,
    parseU64_toString]
  rfl

theorem textAt_congr {place : Path} {t t' : Node File} (h : t'.look place = t.look place) :
    Disk.textAt place t' = Disk.textAt place t := by
  refine Option.ext fun text => ?_
  rw [Disk.textAt_eq_some, Disk.textAt_eq_some, h]

theorem rewritten_congr {bytes : Bytes} {place : Path} {t t' : Node File}
    (h : t'.look place = t.look place) :
    Disk.rewritten bytes place t' = Disk.rewritten bytes place t := by
  rw [Disk.rewritten, Disk.rewritten, h]

theorem decodeKey_ne_nil {value : String} (h : Trust.decodeKey value = .ok key) : key ≠ [] := by
  unfold Trust.decodeKey Trust.decodeHex at h
  split at h
  · cases h
  next hl =>
    rw [Bool.or_eq_true, not_or, decide_eq_true_eq, not_not] at hl
    rintro rfl
    match hc : value.toList with
    | [] => simp [hc] at hl
    | [_] => simp [hc] at hl
    | first :: second :: rest =>
      rw [hc, Trust.hexBytes] at h
      cases hf : Trust.hexByte first second with
      | none => simp [hf] at h
      | some byte =>
        cases hr : Trust.hexBytes rest with
        | none => simp [hf, hr] at h
        | some bytes => simp [hf, hr] at h

theorem ensures_checkRoot :
    Returns (checkRoot trusted) s fun _ _ => trusted.rootPublicKey ≠ [] := by
  refine .skip fun bytes s₁ => ?_
  rw [Returns, ensures_onDisk]
  cases ofUtf8 bytes with
  | none => trivial
  | some text =>
    dsimp only
    rw [ensures_bind, ensures_lift]
    refine ⟨fun advertised ha => ?_, fun _ _ => trivial⟩
    split
    · trivial
    next hsa =>
      rw [not_not] at hsa
      rw [ensures_pure, ← hsa]
      exact decodeKey_ne_nil ha

theorem ensures_openSession_minimum : Returns (openSession root trusted) s
    fun session _ => trusted.rootPublicKey ≠ [] ∧ session.minimum =
      (persisted (encodeHex trusted.rootPublicKey)
        (Disk.textAt (generationPlace root) s.disk.tree)).1 := by
  refine .bind (leaves_checkRoot.ensures ensures_checkRoot) ?_
  rintro _ s₁ ⟨hkey, h₁⟩
  refine .bind leaves_remoteJson.returns fun status s₂ h₂ => ?_
  refine .bind leaves_remoteJson.returns fun advisories s₃ h₃ => ?_
  have ho : Leaves (fun s => s.disk.seen (generationPlace root)) (onDisk (openStore root)) :=
    leaves_onDisk (f := Disk.seen _) (leaves_openStore unrelated_generationPlace.2)
  refine .bind ho.returns fun _ s₄ h₄ => ?_
  have hte : Disk.textAt (generationPlace root) s₄.disk.tree =
      Disk.textAt (generationPlace root) s.disk.tree := by
    refine (textAt_congr h₄).trans ?_
    rw [h₃, h₂, h₁]
  rw [Returns, ensures_bind, ensures_onDisk, Disk.readToString, Disk.ensures_inspect, hte]
  cases trusted.now with
  | none => trivial
  | some now =>
    dsimp only
    split
    · trivial
    · exact ⟨hkey, rfl⟩

def beside (root : Path) (s : Online) (name : { name : String // name ≠ "deps" }) :
    Option (Entry File) :=
  s.disk.seen (stateOf root ++ [name.1])

theorem leaves_beside {m : OnDisk α}
    (h : ∀ name, name ≠ "deps" → Leaves (Disk.seen (stateOf root ++ [name])) m) :
    Leaves (beside root) (onDisk m) :=
  .all fun name => leaves_onDisk (f := Disk.seen _) (h name.1 name.2)

theorem leaves_commitGathered {gathered : Option (PackageMap StagedPackage)}
    (hp : ∀ staged, gathered = some staged → ∀ (id : PackageId) (entry : StagedPackage),
      staged[id]? = some entry → Prepared crypto root id entry) :
    Leaves (beside root) (commitGathered processId crypto root manifest gathered) := by
  cases gathered with
  | none => exact .pure none
  | some staged =>
    have hen : ∀ e ∈ staged.toList, Prepared crypto root e.1 e.2 := fun e he =>
      hp staged rfl e.1 e.2 (Std.ExtTreeMap.mem_toList_iff_getElem?_eq_some.mp he)
    refine .map (leaves_beside fun name hn => ?_)
    refine .bind (.lift _) fun packages => ?_
    refine .bind (Disk.leaves_seen leaves_guardProspectiveAuthority _) fun _ => ?_
    refine .bind (leaves_installStaged (unrelated_beside hn) hen) fun _ => ?_
    exact .bind (leaves_writeLockfile _) fun _ => .bind (leaves_writeAuthority _) fun _ => .pure _

theorem ensures_gather_verified {session : Session} :
    Returns (gather root manifest (releaseSource crypto root trusted session) fuel) s
      fun r _ => r ≠ none → manifest.requirements ≠ [] →
        Trust.Signed crypto trusted.rootPublicKey (statusBytes session.status)
          session.status.signature ∧ session.minimum ≤ session.status.generation := by
  have hv : ∀ id s, Returns (visitSource root (releaseSource crypto root trusted session) id) s
      fun _ _ => Trust.Signed crypto trusted.rootPublicKey (statusBytes session.status)
        session.status.signature ∧ session.minimum ≤ session.status.generation :=
    fun id s => .bind (ensures_releaseSource s) fun r s' h => .of_forall fun _ _ => h.2
  rw [gather]
  cases hp : manifest.requirements.reverse with
  | nil =>
    rw [reverse_eq_nil_iff] at hp
    exact .of_forall fun _ _ _ hso => absurd hp hso
  | cons id rest =>
    refine (Traversal.ensures_drain_head (hv id) (by simp) fuel).mono ?_ fun _ _ h => h
    exact fun _ _ h hr _ => h hr

/-- What a successful install from a registry has found, and what it leaves. -/
structure Accepted (processId : ℕ) (crypto : Trust.Crypto) (root : Path) (manifest : Manifest)
    (trusted : Trusted) (session : Session) (t t' : Node File) : Prop where
  key : trusted.rootPublicKey ≠ []
  minimum : session.minimum = (persisted (encodeHex trusted.rootPublicKey)
    (Disk.textAt (generationPlace root) t)).1
  verified : manifest.requirements ≠ [] →
    Trust.Signed crypto trusted.rootPublicKey (statusBytes session.status)
      session.status.signature ∧ session.minimum ≤ session.status.generation
  stored : t'.look (generationPlace root) = some (.file (Disk.rewritten
    (utf8 (generationText (encodeHex trusted.rootPublicKey) session.status))
    (Disk.temporary processId (generationPlace root)) t))

theorem ensures_installTrustedWith :
    Ensures (installTrustedWith processId crypto root manifest trusted fuel) s
      (fun r s' => (r = none ∧ s'.disk.seen (generationPlace root) = s.disk.seen (generationPlace root)) ∨
        ∃ session, r ≠ none ∧ (exec (openSession root trusted) s).1 = .ok session ∧
          Accepted processId crypto root manifest trusted session s.disk.tree s'.disk.tree)
      fun _ s' => s'.disk.seen (generationPlace root) = s.disk.seen (generationPlace root) := by
  have hp : ∀ {s s' : Online}, beside root s' = beside root s →
      s'.disk.seen (generationPlace root) = s.disk.seen (generationPlace root) :=
    fun h => congrFun h ⟨"registry-generation", by decide⟩
  have hon : Leaves (beside root) (openSession root trusted) :=
    .all fun name => leaves_openSession (unrelated_beside name.2).2
  have hop : Returns (openSession root trusted) s
      fun session s₁ => exec (openSession root trusted) s = (.ok session, s₁) :=
    .of_exec (fun _ _ h => h) fun _ _ _ => trivial
  rw [installTrustedWith, ensures_bind]
  refine (hon.ensures (hop.and ensures_openSession_minimum)).mono ?_ fun _ _ h => hp h.2
  rintro session s₁ ⟨⟨hse, hkey, hm⟩, h₁⟩
  have hga : Leaves (beside root)
      (gather root manifest (releaseSource crypto root trusted session) fuel) :=
    .all fun name => leaves_online (leaves_gather supplies_releaseSource)
  rw [ensures_bind]
  refine (hga.ensures ((ensures_gather supplies_releaseSource s₁).and
    ensures_gather_verified)).mono ?_ fun _ _ h => hp (h.2.trans h₁)
  rintro gathered s₂ ⟨⟨⟨-, hpr⟩, hv⟩, h₂⟩
  have hc : Returns (commitGathered processId crypto root manifest gathered) s₂
      fun r _ => r ≠ none → gathered ≠ none := by
    cases gathered with
    | none => exact fun h => absurd rfl h
    | some staged => exact .of_forall fun _ _ _ => by simp
  rw [ensures_bind]
  refine ((leaves_commitGathered hpr).ensures hc).mono ?_ fun _ _ h => hp (h.2.trans (h₂.trans h₁))
  rintro installed s₃ ⟨hg, h₃⟩
  have hsa := h₃.trans (h₂.trans h₁)
  cases installed with
  | none => exact .inl ⟨rfl, hp hsa⟩
  | some count =>
    have hsl : ¬ Disk.temporary processId (generationPlace root) <+: generationPlace root :=
      temporary_ne 20 (by decide) (by decide)
    have hte : s₃.disk.tree.look (Disk.temporary processId (generationPlace root)) =
        s.disk.tree.look (Disk.temporary processId (generationPlace root)) := by
      have hd := @temporary_ne processId "registry-generation" (stateOf root) "deps" 1 (by decide)
        (by decide)
      rw [temporary_eq] at hd
      rw [generationPlace, temporary_eq]
      generalize String.ofList _ = name at hd ⊢
      exact congrFun hsa ⟨name, by simpa using hd⟩
    dsimp only
    rw [ensures_bind, ensures_onDisk]
    refine ((Disk.ensures_writeAtomic hsl).and (Disk.ensures_writeAtomic_kept hsl)).mono ?_
      fun _ _ h => h.2.trans (hp hsa)
    rintro _ d₄ ⟨hs, -⟩
    refine .inr ⟨session, by simp, by rw [hse], hkey, hm, hv (hg (by simp)), ?_⟩
    rw [hs, rewritten_congr hte]

structure Run where
  processId : ℕ
  manifest : Manifest
  trusted : Trusted
  fuel : ℕ

section History

variable (crypto : Trust.Crypto) (root : Path)

def Run.program (run : Run) : Fetching (Option ℕ) :=
  installTrustedWith run.processId crypto root run.manifest run.trusted run.fuel

def history : Online → List Run → List (Run × Online)
  | _, [] => []
  | s, run :: rest => (run, s) :: history (exec (run.program crypto root) s).2 rest

def Succeeds (e : Run × Online) (status : Trust.RegistryStatus) : Prop :=
  (∃ count, (exec (e.1.program crypto root) e.2).1 = .ok (some count)) ∧
    ∃ session, (exec (openSession root e.1.trusted) e.2).1 = .ok session ∧ session.status = status

/-- What protects a project from older registries, over a sequence of runs. -/
structure Protected (s : Online) (runs : List Run) : Prop where
  monotone : (history crypto root s runs).Pairwise fun a b => ∀ status status',
    Succeeds crypto root a status → Succeeds crypto root b status' →
      a.1.trusted.rootPublicKey = b.1.trusted.rootPublicKey → status.generation ≤ status'.generation
  signed : ∀ e ∈ history crypto root s runs, ∀ status, Succeeds crypto root e status →
    Trust.Signed crypto e.1.trusted.rootPublicKey (statusBytes status) status.signature
  stored : ∀ e ∈ history crypto root s runs,
    (exec (e.1.program crypto root) e.2).2.disk.seen (generationPlace root) =
        e.2.disk.seen (generationPlace root) ∨
      ∃ status readable, Succeeds crypto root e status ∧
        (exec (e.1.program crypto root) e.2).2.disk.seen (generationPlace root) = some (.file
          ⟨utf8 (generationText (encodeHex e.1.trusted.rootPublicKey) status), readable⟩)

end History

/-- A run that has something to verify, finds nothing stored for another key and will leave a file that
can be read. -/
structure Guarded (root : Path) (run : Run) (s : Online) : Prop where
  dependent : run.manifest.requirements ≠ []
  own : ∀ text key word rest, Disk.textAt (generationPlace root) s.disk.tree = some text →
    Text.splitWhitespace text.toList = key :: word :: rest →
      key = (encodeHex run.trusted.rootPublicKey).toList
  readable : ∀ bytes, s.disk.tree.look (Disk.temporary run.processId (generationPlace root)) ≠
    some (.file ⟨bytes, false⟩)

/-- The generation of a status is stored for a key. -/
structure Stored (root : Path) (key : Bytes) (status : Trust.RegistryStatus) (s : Online) : Prop where
  nonempty : key ≠ []
  file : s.disk.seen (generationPlace root) =
    some (.file ⟨utf8 (generationText (encodeHex key) status), true⟩)

section Steps

variable {run : Run}

/-- What one run does: it fails and leaves what is stored, or stores a verified status that is not older
than what was stored. -/
theorem run_cases (h : Guarded root run s) :
    ((exec (run.program crypto root) s).2.disk.seen (generationPlace root) =
        s.disk.seen (generationPlace root) ∧ ∀ status, ¬ Succeeds crypto root (run, s) status) ∨
      ∃ status, (∀ status', Succeeds crypto root (run, s) status' ↔ status' = status) ∧
        Trust.Signed crypto run.trusted.rootPublicKey (statusBytes status) status.signature ∧
        (persisted (encodeHex run.trusted.rootPublicKey)
          (Disk.textAt (generationPlace root) s.disk.tree)).1 ≤ status.generation ∧
        Stored root run.trusted.rootPublicKey status (exec (run.program crypto root) s).2 := by
  have hrun := @ensures_installTrustedWith run.processId crypto root run.manifest run.trusted run.fuel s
  change Ensures (run.program crypto root) s _ _ at hrun
  unfold Ensures at hrun
  rcases hec : exec (run.program crypto root) s with ⟨outcome, s'⟩
  rw [hec] at hrun
  have hf : (∀ count, outcome ≠ .ok (some count)) → ∀ status, ¬ Succeeds crypto root (run, s) status := by
    rintro hnot status ⟨⟨count, hc⟩, -⟩
    rw [hec] at hc
    exact hnot count hc
  match outcome with
  | .error e => exact .inl ⟨hrun, hf nofun⟩
  | .ok none =>
    obtain ⟨-, hsa⟩ | ⟨-, hso, -⟩ := hrun
    · exact .inl ⟨hsa, hf nofun⟩
    · exact absurd rfl hso
  | .ok (some count) =>
    obtain ⟨hn, -⟩ | ⟨session, -, hse, ha⟩ := hrun
    · cases hn
    obtain ⟨hsi, hm⟩ := ha.verified h.dependent
    rw [ha.minimum] at hm
    refine .inr ⟨session.status, fun status' => ⟨?_, ?_⟩, hsi, hm, ha.key, ?_⟩
    · rintro ⟨-, other, hot, rfl⟩
      rw [hse] at hot
      cases hot
      rfl
    · rintro rfl
      exact ⟨⟨count, by rw [hec]⟩, session, hse, rfl⟩
    · refine ha.stored.trans ?_
      unfold Disk.rewritten
      split
      next old hold =>
        obtain ⟨bytes, readable⟩ := old
        cases readable with
        | true => rfl
        | false => exact absurd hold (h.readable bytes)
      · rfl

variable {status : Trust.RegistryStatus}

theorem Stored.le_persisted (h : Stored root key status s) (hg : Guarded root run s) :
    (persisted (encodeHex run.trusted.rootPublicKey)
      (Disk.textAt (generationPlace root) s.disk.tree)).1 = status.generation := by
  have hte : Disk.textAt (generationPlace root) s.disk.tree =
      some (generationText (encodeHex key) status) := Disk.textAt_eq_some.mpr h.file
  have hkey := hg.own _ _ _ _ hte (words_generationText h.nonempty status)
  rw [hte, ← String.toList_injective hkey]
  exact persisted_generationText h.nonempty status

theorem Stored.le_of_history {runs : List Run} (h : Stored root key status s)
    (hg : ∀ e ∈ history crypto root s runs, Guarded root e.1 e.2) :
    ∀ e ∈ history crypto root s runs, ∀ status', Succeeds crypto root e status' →
      status.generation ≤ status'.generation := by
  induction runs generalizing s key status with
  | nil => simp [history]
  | cons run rest ih =>
    have hf : Guarded root run s := hg (run, s) (by simp [history])
    have hr : ∀ e ∈ history crypto root (exec (run.program crypto root) s).2 rest,
        Guarded root e.1 e.2 := fun e he => hg e (by simp [history, he])
    intro e he status' hst
    rcases mem_cons.mp he with rfl | he
    · obtain ⟨-, hnot⟩ | ⟨found, hfo, -, hm, -⟩ := run_cases hf
      · exact absurd hst (hnot status')
      · rw [hfo] at hst
        rwa [hst, ← h.le_persisted hf]
    · obtain ⟨hsa, -⟩ | ⟨found, -, -, hm, hs⟩ := run_cases hf
      · exact ih ⟨h.nonempty, hsa.trans h.file⟩ hr e he status' hst
      · rw [h.le_persisted hf] at hm
        exact UInt64.le_trans hm (ih hs hr e he status' hst)

end Steps

/-- A sequence of runs is protected when each has a dependency, finds nothing stored for another key and
leaves a file that can be read. -/
theorem protected_of_guarded (crypto : Trust.Crypto) (root : Path) (s : Online) (runs : List Run)
    (hguarded : ∀ e ∈ history crypto root s runs, Guarded root e.1 e.2) :
    Protected crypto root s runs := by
  refine ⟨?_, fun e he status hstatus => ?_, fun e he => ?_⟩
  · induction runs generalizing s with
    | nil => exact .nil
    | cons run rest ih =>
      have hrest : ∀ e ∈ history crypto root (exec (run.program crypto root) s).2 rest,
          Guarded root e.1 e.2 := fun e he => hguarded e (by simp [history, he])
      refine .cons (fun e he status status' hstatus hstatus' _ => ?_) (ih _ hrest)
      obtain ⟨-, hnot⟩ | ⟨found, hfound, -, -, hstored⟩ :=
        run_cases (hguarded (run, s) (by simp [history]))
      · exact absurd hstatus (hnot status)
      · rw [hfound] at hstatus
        rw [hstatus]
        exact hstored.le_of_history hrest e he status' hstatus'
  · obtain ⟨-, hnot⟩ | ⟨found, hfound, hsigned, -, -⟩ := run_cases (hguarded e he)
    · exact absurd hstatus (hnot status)
    · rw [(hfound status).mp hstatus]
      exact hsigned
  · obtain ⟨hsame, -⟩ | ⟨found, hfound, -, -, hstored⟩ := run_cases (hguarded e he)
    · exact .inl hsame
    · exact .inr ⟨found, true, (hfound found).mpr rfl, hstored.file⟩

/-- The registry shows its only release at some generation. -/
def servedRegistry (generation : UInt64) : Trusted where
  rootPublicKey := replicate 32 7
  remote _ path _ :=
    if path = "v1/trust/root.pub" then .ok (utf8 (encodeHex (replicate 32 7)))
    else .ok (sampleRelease ∅ 0).packageBytes
  readers := {
    status := fun _ => .ok { (sampleRelease ∅ 0).status with generation }
    advisories := fun _ => .ok []
    provenance := fun _ => .ok (sampleRelease ∅ 0).provenance
    authorization := fun _ => .ok (sampleRelease ∅ 0).authorization }
  now := some 150

def servedRun (dependencies : TextMap String) (generation : UInt64) : Run :=
  ⟨1, { plainManifest "app" with dependencies }, servedRegistry generation, 1⟩

def emptyProject : Online := ⟨⟨.dir [], []⟩, 0⟩

def unconvinced : Trust.Crypto := ⟨fun _ => [], fun _ => false, fun _ _ _ => false⟩

/-- A run with a dependency, which succeeds. -/
theorem protected_sample :
    let run := servedRun ((∅ : TextMap String).insert "shapes" "1.0.0") 5
    Protected lenient [] emptyProject [run] ∧
      (exec (run.program lenient []) emptyProject).1 = .ok (some 1) := by
  intro run
  refine ⟨protected_of_guarded lenient [] emptyProject [run] fun e he => ?_, by decide +kernel⟩
  cases mem_singleton.mp he
  exact ⟨by decide +kernel, nofun, nofun⟩

/-- Without dependencies nothing is verified: a project goes from generation 5 back to generation 3,
though no signature is accepted. -/
theorem unverified_status_rolls_back :
    ¬ Protected unconvinced [] emptyProject [servedRun ∅ 5, servedRun ∅ 3] := by
  have hruns : (history unconvinced [] emptyProject [servedRun ∅ 5, servedRun ∅ 3]).map
      (fun e => ((exec (e.1.program unconvinced []) e.2).1.toOption,
        (exec (openSession [] e.1.trusted) e.2).1.toOption.map (·.status.generation))) =
      [(some (some 0), some 5), (some (some 0), some 3)] := by
    decide +kernel
  have hsucceeds : ∀ {e : Run × Online} {generation : UInt64},
      (exec (e.1.program unconvinced []) e.2).1.toOption = some (some 0) →
      (exec (openSession [] e.1.trusted) e.2).1.toOption.map (·.status.generation) = some generation →
      ∃ status, Succeeds unconvinced [] e status ∧ status.generation = generation := by
    intro e generation hcount hsession
    rcases hopen : (exec (openSession [] e.1.trusted) e.2).1 with fault | session
    · rw [hopen] at hsession
      cases hsession
    · rw [hopen] at hsession
      rcases hexec : (exec (e.1.program unconvinced []) e.2).1 with fault | count
      · rw [hexec] at hcount
        cases hcount
      · rw [hexec] at hcount
        cases hcount
        cases hsession
        exact ⟨session.status, ⟨⟨0, hexec⟩, session, hopen, rfl⟩, rfl⟩
  intro hprotected
  have hpair := hprotected.monotone
  obtain ⟨first, second, hlist, hkeys⟩ : ∃ first second,
      history unconvinced [] emptyProject [servedRun ∅ 5, servedRun ∅ 3] = [first, second] ∧
        first.1.trusted.rootPublicKey = second.1.trusted.rootPublicKey := ⟨_, _, rfl, rfl⟩
  rw [hlist] at hpair hruns
  simp only [map_cons, map_nil, cons.injEq, Prod.mk.injEq, and_true] at hruns
  obtain ⟨status, hstatus, hfive⟩ := hsucceeds hruns.1.1 hruns.1.2
  obtain ⟨status', hstatus', hthree⟩ := hsucceeds hruns.2.1 hruns.2.2
  have hle := (pairwise_cons.mp hpair).1 second (by simp) status status' hstatus hstatus' hkeys
  rw [hfive, hthree] at hle
  exact absurd hle (by decide)

end Nivren.Commands
