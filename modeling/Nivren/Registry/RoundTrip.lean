import Nivren.Registry.Envelope
import Nivren.Registry.ManifestText

/-! What the decoders make of archives and envelopes.

The encoder of archives writes names and versions of any length; the decoder refuses texts of more than
4096 bytes. Everything else that is written is read back, and no decoder accepts a part of what was
written, or more than that.
-/

namespace Nivren

open Codec List

namespace Package

theorem mirrors_string (text : String) :
    Mirrors Reader.string (writeString text) ((utf8 text).length ≤ 4096) text := by
  refine ((mirrors_fixed 4 (utf8 text).length).bind (mirrors_text text).guard).congr ?_
  simp

theorem extends_string : Extends Reader.string := by
  refine (Extends.take 4).map.bind fun length => Extends.guard ((Extends.take length).bind ?_)
  intro bytes
  split
  · exact .pure
  · exact .throw

structure Written (file : String × Bytes) : Prop where
  path : validatePath file.1 = .ok ()
  size : file.2.length ≤ maxFileSize

theorem Written.short {file : String × Bytes} (h : Written file) : (utf8 file.1).length ≤ 4096 := by
  have hp := h.path
  unfold validatePath at hp
  split at hp
  · cases hp
  next hsh =>
    rw [not_or, not_or] at hsh
    exact Nat.le_of_not_lt hsh.2.1

variable {files : List (String × Bytes)}

theorem written_of_validateEach {total result : ℕ}
    (h : validateEach files total = .ok result) : ∀ file ∈ files, Written file := by
  induction files generalizing total with
  | nil => simp
  | cons file rest ih =>
    obtain ⟨path, contents⟩ := file
    obtain ⟨_, hp, h⟩ := bind_eq_ok_iff.mp h
    obtain ⟨hsi, h⟩ := unless_eq_ok_iff.mp h
    obtain ⟨-, h⟩ := unless_eq_ok_iff.mp h
    rw [forall_mem_cons]
    exact ⟨⟨hp, Nat.le_of_not_lt hsi⟩, ih h⟩

theorem mirrors_files (hw : ∀ file ∈ files, Written file)
    (found : TextMap Bytes) (hd : (files.map Prod.fst).Nodup)
    (hfr : ∀ file ∈ files, found.contains file.1 = false) :
    Mirrors (Reader.files files.length found) (writeAll writeFile files) True
      (Maps.insertAll files found) := by
  induction files generalizing found with
  | nil => exact .pure
  | cons file rest ih =>
    obtain ⟨path, contents⟩ := file
    have hf := hw _ mem_cons_self
    rw [map_cons, nodup_cons] at hd
    have hr := ih (fun file hf => hw file (mem_cons_of_mem _ hf))
      (found.insert path contents) hd.2 fun other hot => by
        have hne : path ≠ other.1 := fun heq =>
          hd.1 (mem_map.mpr ⟨other, hot, heq.symm⟩)
        rw [Std.ExtTreeMap.contains_insert, hfr other (mem_cons_of_mem _ hot)]
        simpa using hne
    rw [writeAll, writeFile, Output.append_assoc, Output.append_assoc]
    have hnew := hfr _ mem_cons_self
    have hsh := hf.short
    have hsi := hf.size
    refine ((mirrors_string path).bind (.pass hf.path ((mirrors_fixed 8 contents.length).bind
      (.guard ((mirrors_take contents).bind (.guard hr)))))).congr ?_
    simp_all

theorem extends_files (count : ℕ) (found : TextMap Bytes) : Extends (Reader.files count found) := by
  induction count generalizing found with
  | zero => exact .pure
  | succ count ih =>
    refine extends_string.bind fun path => .lift fun _ => (Extends.take 8).map.bind fun length => ?_
    exact .guard ((Extends.take length).bind fun contents => .guard (ih _))

def header (package : Package) : Output NivError :=
  (.ok (magic ++ leBytes 2 formatVersion) : Output NivError) ++ writeString package.name ++
    writeString package.version ++ writeU32 package.files.size

variable {package : Package} {bytes other : Bytes}

theorem encode_eq_ok : encode package = .ok bytes ↔
    Manifest.validateIdentity package.name package.version = .ok () ∧
      validateFiles package.files = .ok () ∧
      package.header ++ writeAll writeFile package.files.toList = .ok bytes ∧
      bytes.length ≤ maxPackageSize := by
  simp only [encode, header, bind_eq_ok_iff, unless_eq_ok_iff, Nat.not_lt]
  constructor
  · rintro ⟨⟨⟩, hid, ⟨⟩, hf, _, hb, hsi, ⟨⟩⟩
    exact ⟨hid, hf, hb, hsi⟩
  · rintro ⟨hid, hf, hb, hsi⟩
    exact ⟨(), hid, (), hf, _, hb, hsi, rfl⟩

theorem extends_package : Extends Reader.package := by
  refine (Extends.take 4).bind fun found => .guard ((Extends.take 2).map.bind fun format => ?_)
  refine .guard (extends_string.bind fun name => extends_string.bind fun version => ?_)
  refine .lift fun _ => (Extends.take 4).map.bind fun count => .guard ?_
  exact (extends_files count ∅).bind fun files => .pure

theorem validateFiles_eq_ok (h : validateFiles package.files = .ok ()) :
    package.files.size ≠ 0 ∧ package.files.size ≤ maxFiles ∧
      ∀ file ∈ package.files.toList, Written file := by
  unfold validateFiles at h
  obtain ⟨hc, h⟩ := unless_eq_ok_iff.mp h
  obtain ⟨total, hea, -⟩ := bind_eq_ok_iff.mp h
  rw [Bool.or_eq_true, not_or, decide_eq_true_eq] at hc
  refine ⟨?_, Nat.le_of_not_lt hc.2, written_of_validateEach hea⟩
  intro hz
  rw [Std.ExtTreeMap.isEmpty_eq_size_beq_zero, hz] at hc
  exact hc.1 rfl

theorem mirrors_package (h : encode package = .ok bytes) :
    Mirrors Reader.package (package.header ++ writeAll writeFile package.files.toList)
      ((utf8 package.name).length ≤ 4096 ∧ (utf8 package.version).length ≤ 4096) package := by
  obtain ⟨hid, hf, -, -⟩ := encode_eq_ok.mp h
  obtain ⟨hz, hm, hw⟩ := validateFiles_eq_ok hf
  have hr := mirrors_files hw ∅ (Maps.nodup_keys _) fun file _ => Std.ExtTreeMap.contains_empty
  rw [Maps.insertAll_toList, Std.ExtTreeMap.length_toList] at hr
  have hc : ¬ (package.files.size = 0 ∨ maxFiles < package.files.size) :=
    not_or.mpr ⟨hz, Nat.not_lt.mpr hm⟩
  have hst : (.ok (magic ++ leBytes 2 formatVersion) : Output NivError) =
      (.ok magic : Output NivError) ++
        (if formatVersion < 256 ^ 2 then .ok (leBytes 2 formatVersion)
          else .error (packageError "") : Output NivError) := rfl
  rw [header, hst]
  simp only [Output.append_assoc]
  refine Mirrors.congr (p := True ∧ ¬ magic ≠ magic ∧ True ∧ ¬ formatVersion ≠ formatVersion ∧
    (utf8 package.name).length ≤ 4096 ∧ (utf8 package.version).length ≤ 4096 ∧ True ∧
    ¬ (package.files.size = 0 ∨ maxFiles < package.files.size) ∧ True) ?_ ?_
  · refine (mirrors_take magic).bind ?_
    refine .check_ends ?_
    refine (mirrors_fixed 2 formatVersion).bind ?_
    refine .check_ends ?_
    refine (mirrors_string package.name).bind ?_
    refine (mirrors_string package.version).bind ?_
    refine .pass hid ?_
    refine (mirrors_fixed 4 package.files.size).bind ?_
    refine .check_ends ?_
    exact hr.last _
  · simp [hc]

theorem decode_eq_ok : decode bytes = .ok package ↔ bytes.length ≤ maxPackageSize ∧
    Reader.package bytes = .ok (package, []) ∧ validateFiles package.files = .ok () ∧
      checkManifest package = .ok () := by
  simp only [decode, unless_eq_ok_iff, bind_eq_ok_iff, Nat.not_lt, not_not]
  constructor
  · rintro ⟨hsi, ⟨found, rest⟩, hr, rfl, ⟨⟩, hf, ⟨⟩, hm, ⟨⟩⟩
    exact ⟨hsi, hr, hf, hm⟩
  · rintro ⟨hsi, hr, hf, hm⟩
    exact ⟨hsi, (package, []), hr, rfl, (), hf, (), hm, rfl⟩

theorem decode_encode_iff (h : encode package = .ok bytes) (hm : checkManifest package = .ok ()) :
    decode bytes = .ok package ↔
      (utf8 package.name).length ≤ 4096 ∧ (utf8 package.version).length ≤ 4096 := by
  obtain ⟨-, hf, hb, hsi⟩ := encode_eq_ok.mp h
  have ha := mirrors_package h bytes hb []
  rw [append_nil] at ha
  rcases ha with ⟨hsh, hr⟩ | ⟨hl, e, hr⟩
  · exact iff_of_true (decode_eq_ok.mpr ⟨hsi, hr, hf, hm⟩) hsh
  · refine iff_of_false (fun hd => ?_) hl
    rw [(decode_eq_ok.mp hd).2.1] at hr
    cases hr

theorem decode_strict (h : encode package = .ok bytes) (hne : other ≠ bytes)
    (hot : other <+: bytes ∨ bytes <+: other) : ∃ e, decode other = .error e := by
  cases hd : decode other with
  | error e => exact ⟨e, rfl⟩
  | ok found =>
    exact absurd (extends_package.eq_of_isPrefix (mirrors_package h) (encode_eq_ok.mp h).2.2.1
      (decode_eq_ok.mp hd).2.1 hot) hne

end Package

namespace PublishEnvelope

open Trust

structure Writers where
  provenance : ReleaseProvenance → Except String Bytes
  authorization : PublisherAuthorization → Except String Bytes

def writeFixed (width value : ℕ) (refusal : String) : Output NivError :=
  if value < 256 ^ width then .ok (leBytes width value) else .error (trustError refusal)

def written {α : Type} (writer : α → Except String Bytes) (label : String) (value : α) :
    Except NivError Bytes :=
  match writer value with
  | .ok bytes => .ok bytes
  | .error reason => .error (trustError ("cannot encode " ++ label ++ ": " ++ reason))

/-- The bytes of an envelope. -/
def contents (provenance authorization package : Bytes) : Output NivError :=
  (.ok magic : Output NivError) ++ (.ok (leBytes 2 1) : Output NivError) ++
    writeFixed 4 provenance.length "provenance length overflow" ++
    writeFixed 4 authorization.length "authorization length overflow" ++
    writeFixed 8 package.length "package length overflow" ++ (.ok provenance : Output NivError) ++
    (.ok authorization : Output NivError) ++ (.ok package : Output NivError)

/-- `PublishEnvelope::encode`. -/
def encode (writers : Writers) (envelope : PublishEnvelope) : Except NivError Bytes := do
  let provenance ← written writers.provenance "provenance" envelope.provenance
  let authorization ← written writers.authorization "authorization" envelope.authorization
  if maxDocumentSize < provenance.length ∨ maxDocumentSize < authorization.length then
    throw (trustError "publish document exceeds 1 MiB")
  discard (Package.decode envelope.package)
  let bytes ← contents provenance authorization envelope.package
  if maxEnvelopeSize < bytes.length then throw (trustError "publish envelope exceeds 66 MiB")
  return bytes

variable {writers : Writers} {readers : Commands.Readers} {envelope : PublishEnvelope}
  {bytes other : Bytes}

variable {label : String} {α : Type}

theorem written_eq_ok {writer : α → Except String Bytes} {value : α} :
    written writer label value = .ok bytes ↔ writer value = .ok bytes := by
  unfold written
  cases writer value <;> simp

structure Encoded (writers : Writers) (envelope : PublishEnvelope)
    (provenance authorization bytes : Bytes) : Prop where
  provenanceWritten : writers.provenance envelope.provenance = .ok provenance
  authorizationWritten : writers.authorization envelope.authorization = .ok authorization
  provenanceSize : provenance.length ≤ maxDocumentSize
  authorizationSize : authorization.length ≤ maxDocumentSize
  package : ∃ package, Package.decode envelope.package = .ok package
  contents : contents provenance authorization envelope.package = .ok bytes
  size : bytes.length ≤ maxEnvelopeSize

theorem encode_encoded (h : encode writers envelope = .ok bytes) :
    ∃ provenance authorization, Encoded writers envelope provenance authorization bytes := by
  simp only [encode, unless_eq_ok_iff, bind_eq_ok_iff, written_eq_ok, not_or, Nat.not_lt] at h
  obtain ⟨provenance, hprovenance, authorization, hauthorization, hd, ⟨⟩, hp, found,
    hc, hsi, ⟨⟩⟩ := h
  refine ⟨provenance, authorization, hprovenance, hauthorization, hd.1, hd.2, ?_, hc, hsi⟩
  cases hde : Package.decode envelope.package with
  | ok package => exact ⟨package, rfl⟩
  | error e =>
    rw [hde] at hp
    cases hp

variable {reader : Bytes → Except String α}

theorem mirrors_document {value : α} (h : reader bytes = .ok value) :
    Mirrors (Reader.document reader label bytes.length) (.ok bytes) True value := by
  refine ((mirrors_take bytes).check (q := True) ?_).congr (by simp)
  rw [h]
  exact .pure

theorem extends_document (length : ℕ) : Extends (Reader.document reader label length) := by
  refine (Extends.take length).bind fun bytes => ?_
  split
  · exact .pure
  · exact .throw

theorem extends_envelope : Extends (Reader.envelope readers) := by
  refine (Extends.take 4).bind fun found => .guard ((Extends.take 2).map.bind fun format => ?_)
  refine .guard ((Extends.take 4).map.bind fun provenanceLength => ?_)
  refine (Extends.take 4).map.bind fun authorizationLength => ?_
  refine (Extends.take 8).map.bind fun packageLength => .guard ?_
  refine (extends_document _).bind fun _ => (extends_document _).bind fun _ => ?_
  exact (Extends.take packageLength).bind fun _ => .pure

section Envelope

variable {provenance authorization : Bytes}
  (hencoded : Encoded writers envelope provenance authorization bytes)
  (hprovenance : readers.provenance provenance = .ok envelope.provenance)
  (hauthorization : readers.authorization authorization = .ok envelope.authorization)
include hencoded hprovenance hauthorization

theorem mirrors_envelope : Mirrors (Reader.envelope readers)
    (contents provenance authorization envelope.package) True envelope := by
  have hv : (.ok (leBytes 2 1) : Output NivError) =
      if 1 < 256 ^ 2 then .ok (leBytes 2 1) else .error (trustError "") := rfl
  have hsi : ¬ (maxDocumentSize < provenance.length ∨ maxDocumentSize < authorization.length) :=
    not_or.mpr ⟨Nat.not_lt.mpr hencoded.provenanceSize, Nat.not_lt.mpr hencoded.authorizationSize⟩
  rw [PublishEnvelope.contents, hv]
  simp only [Output.append_assoc]
  refine Mirrors.congr (p := True ∧ ¬ magic ≠ magic ∧ True ∧ ¬ 1 ≠ 1 ∧ True ∧ True ∧ True ∧
    ¬ (maxDocumentSize < provenance.length ∨ maxDocumentSize < authorization.length) ∧ True ∧ True ∧
    True) ?_ ?_
  · refine (mirrors_take magic).bind ?_
    refine .check_ends ?_
    refine (mirrors_fixed 2 1).bind ?_
    refine .check_ends ?_
    refine (mirrors_fixed 4 provenance.length).bind ?_
    refine (mirrors_fixed 4 authorization.length).bind ?_
    refine (mirrors_fixed 8 envelope.package.length).bind ?_
    refine .check_ends ?_
    refine (mirrors_document hprovenance).bind ?_
    refine (mirrors_document hauthorization).bind ?_
    exact (mirrors_take envelope.package).last _
  · simp [hsi]

theorem decode_encoded : decode readers bytes = .ok envelope := by
  obtain ⟨package, hp⟩ := hencoded.package
  have hr := mirrors_envelope hencoded hprovenance hauthorization bytes hencoded.contents []
  rw [append_nil] at hr
  obtain ⟨-, hr⟩ := hr.resolve_right fun h => h.1 trivial
  simp only [decode, unless_eq_ok_iff, bind_eq_ok_iff, Nat.not_lt, not_not]
  refine ⟨hencoded.size, (envelope, []), hr, rfl, (), ?_, rfl⟩
  rw [hp]
  rfl

theorem decode_encoded_strict (hne : other ≠ bytes) (hot : other <+: bytes ∨ bytes <+: other) :
    ∃ e, decode readers other = .error e := by
  cases hd : decode readers other with
  | error e => exact ⟨e, rfl⟩
  | ok found =>
    simp only [decode, unless_eq_ok_iff, bind_eq_ok_iff, not_not] at hd
    obtain ⟨-, ⟨envelope, rest⟩, hr, rfl, -⟩ := hd
    exact absurd (extends_envelope.eq_of_isPrefix
      (mirrors_envelope hencoded hprovenance hauthorization) hencoded.contents hr hot) hne

end Envelope

end PublishEnvelope

/-- Archives are read back exactly if the name and the version have at most 4096 bytes, envelopes always;
no decoder accepts a proper part or an extension of what was written. -/
theorem codecs_roundtrip_iff (writers : PublishEnvelope.Writers) (readers : Commands.Readers)
    (hprovenance : ∀ value bytes, writers.provenance value = .ok bytes →
      readers.provenance bytes = .ok value)
    (hauthorization : ∀ value bytes, writers.authorization value = .ok bytes →
      readers.authorization bytes = .ok value) :
    (∀ package bytes, Package.encode package = .ok bytes → package.checkManifest = .ok () →
      (Package.decode bytes = .ok package ↔
        (utf8 package.name).length ≤ 4096 ∧ (utf8 package.version).length ≤ 4096)) ∧
    (∀ envelope bytes, PublishEnvelope.encode writers envelope = .ok bytes →
      PublishEnvelope.decode readers bytes = .ok envelope) ∧
    (∀ package bytes other, Package.encode package = .ok bytes → other ≠ bytes →
      other <+: bytes ∨ bytes <+: other → ∃ e, Package.decode other = .error e) ∧
    ∀ envelope bytes other, PublishEnvelope.encode writers envelope = .ok bytes → other ≠ bytes →
      other <+: bytes ∨ bytes <+: other → ∃ e, PublishEnvelope.decode readers other = .error e := by
  refine ⟨fun _ _ => Package.decode_encode_iff, fun envelope bytes h => ?_,
    fun _ _ _ => Package.decode_strict, fun envelope bytes other h => ?_⟩
  · obtain ⟨provenance, authorization, hencoded⟩ := PublishEnvelope.encode_encoded h
    exact PublishEnvelope.decode_encoded hencoded (hprovenance _ _ hencoded.provenanceWritten)
      (hauthorization _ _ hencoded.authorizationWritten)
  · obtain ⟨provenance, authorization, hencoded⟩ := PublishEnvelope.encode_encoded h
    exact PublishEnvelope.decode_encoded_strict hencoded
      (hprovenance _ _ hencoded.provenanceWritten) (hauthorization _ _ hencoded.authorizationWritten)

def sampleWriters : PublishEnvelope.Writers where
  provenance value := if value = (Trust.sampleRelease ∅ 0).provenance then .ok [1] else .error ""
  authorization value := if value = (Trust.sampleRelease ∅ 0).authorization then .ok [2] else .error ""

def sampleReaders : Commands.Readers where
  status _ := .error ""
  advisories _ := .error ""
  provenance _ := .ok (Trust.sampleRelease ∅ 0).provenance
  authorization _ := .ok (Trust.sampleRelease ∅ 0).authorization

theorem sample_read_back : ∃ bytes, Package.encode Trust.samplePackage = .ok bytes ∧
    Package.decode bytes = .ok Trust.samplePackage := by
  have hencode : (Package.encode Trust.samplePackage).toBool = true := by decide +kernel
  have hmanifest : Package.checkManifest Trust.samplePackage = .ok () := by decide +kernel
  cases hbytes : Package.encode Trust.samplePackage with
  | error e =>
    rw [hbytes] at hencode
    cases hencode
  | ok bytes =>
    refine ⟨bytes, rfl, ((codecs_roundtrip_iff sampleWriters sampleReaders ?_ ?_).1 _ _ hbytes
      hmanifest).mpr (by decide +kernel)⟩
    all_goals
      intro value bytes h
      simp only [sampleWriters] at h
      split at h
      next heq =>
        rw [heq]
        rfl
      · cases h

namespace Package

variable {name : String}

def named (name : String) : Manifest := ⟨name, "1.0.0", "main.niv", ∅, ∅, ∅, ∅, none, none, none, 4⟩

theorem named_valid (h : Manifest.validName name = true) : (named name).Valid where
  name := h
  version := (by decide +kernel : Manifest.validVersion "1.0.0" = true)
  entry := (⟨by decide, by decide, by decide⟩ : Manifest.Plain "main.niv")
  inside := (by decide : Manifest.escapingEntry "main.niv" = false)
  edition := .inl rfl
  others := by simp [named]
  native := by simp [named]
  dependencies := by simp [named]
  capabilities := by simp [named]
  scopes := by simp [named]
  modules := by simp [named]
  instructions := by simp [named]
  memory := by simp [named]
  payload := by simp [named]

def bare (name : String) : Package :=
  ⟨name, "1.0.0", (∅ : TextMap Bytes).insert manifestName (utf8 (named name).source)⟩

theorem checkManifest_bare (h : Manifest.validName name = true) :
    checkManifest (bare name) = .ok () := by
  have hget : (bare name).files[manifestName]? = some (utf8 (named name).source) :=
    Std.ExtTreeMap.getElem?_insert_self
  have hutf : ofUtf8 (utf8 (named name).source) = some (named name).source := ofUtf8_eq_some.mpr rfl
  rw [checkManifest, hget]
  simp only [hutf, Manifest.parse_source (named_valid h)]
  simp [bind, Except.bind, bare, named]
  rfl

theorem utf8_length_append (a b : String) :
    (utf8 (a ++ b)).length = (utf8 a).length + (utf8 b).length :=
  String.utf8ByteSize_append

theorem utf8_length_repeated (n : ℕ) : (utf8 (Trust.repeated n 'a')).length = n := by
  induction n with
  | zero => rfl
  | succ n ih =>
    have hsu : Trust.repeated (n + 1) 'a' = "a" ++ Trust.repeated n 'a' := by
      apply String.toList_injective
      simp [Trust.repeated, replicate_succ]
    have hone : (utf8 "a").length = 1 := by decide +kernel
    rw [hsu, utf8_length_append, ih, hone, Nat.add_comm]

theorem utf8_length_source (name : String) :
    (utf8 (named name).source).length = (utf8 name).length + 57 := by
  have hso : (named name).source = "[package]\n" ++ ("name" ++ " = \"" ++ name ++ "\"\n" ++
      Manifest.printEntries [("version", "1.0.0"), ("entry", "main.niv")]) ++ "" ++ "" ++ "" ++ "" := rfl
  have hsi : (utf8 "[package]\n").length = 10 ∧ (utf8 "name").length = 4 ∧
      (utf8 " = \"").length = 4 ∧ (utf8 "\"\n").length = 2 ∧ (utf8 "").length = 0 ∧
      (utf8 (Manifest.printEntries [("version", "1.0.0"), ("entry", "main.niv")])).length = 37 := by
    decide +kernel
  rw [hso]
  simp only [utf8_length_append, hsi]
  omega

/-- A package that is only a manifest is written if its name is not too long. -/
theorem encode_bare (hid : Manifest.validateIdentity name "1.0.0" = .ok ())
    (hn : (utf8 name).length ≤ 9000) : ∃ bytes, encode (bare name) = .ok bytes := by
  have hso := utf8_length_source name
  have hp : validatePath manifestName = .ok () := by decide +kernel
  have hm : (utf8 manifestName).length = 8 ∧ (utf8 "1.0.0").length = 5 := by decide +kernel
  have hw : ∀ {k n : ℕ} {refusal : String}, n ≤ 9999 → 9999 < 256 ^ k →
      writeFixed k n refusal = .ok (leBytes k n) := fun hk hl => if_pos (by omega)
  have hl : (bare name).files.toList = [(manifestName, utf8 (named name).source)] := rfl
  have hsi : (bare name).files.size = 1 := rfl
  have hem : (bare name).files.isEmpty = false := by simp [bare]
  have hf : validateFiles (bare name).files = .ok () := by
    simp only [validateFiles, unless_eq_ok_iff, bind_eq_ok_iff, hl, hsi, hem, validateEach, hp, hso,
      maxFileSize, maxPackageSize]
    exact ⟨by decide, _, ⟨(), trivial, by omega, by omega, rfl⟩, if_neg (by omega)⟩
  have hb : ∃ bytes, (bare name).header ++ writeAll writeFile (bare name).files.toList = .ok bytes ∧
      bytes.length ≤ maxPackageSize := by
    have hv : (utf8 (bare name).version).length = 5 := hm.2
    have hn : (utf8 (bare name).name).length ≤ 9000 := hn
    simp (disch := omega) only [header, writeString, writeU32, writeU64, hl, hsi, writeAll, writeFile, hw]
    refine ⟨_, rfl, ?_⟩
    simp only [length_append, leBytes_length, hm.1, hv, hso, length_nil, maxPackageSize, magic,
      length_cons]
    omega
  obtain ⟨bytes, hb, hsm⟩ := hb
  exact ⟨bytes, encode_eq_ok.mpr ⟨hid, hf, hb, hsm⟩⟩

theorem refused_of_long (hmem : ∀ c ∈ name.toList, c = 'a')
    (hl : 4096 < (utf8 name).length) (hsh : (utf8 name).length ≤ 9000) :
    ∃ package bytes, encode package = .ok bytes ∧ checkManifest package = .ok () ∧
      decode bytes ≠ .ok package := by
  have hv : Manifest.validName name = true := by
    have hne : name ≠ "" := by
      rintro rfl
      exact absurd hl (by decide +kernel)
    simp only [Manifest.validName, ne_eq, hne, not_false_eq_true, decide_true, Bool.true_and,
      all_eq_true]
    intro c hc
    rw [hmem c hc]
    decide
  have hid : Manifest.validateIdentity name "1.0.0" = .ok () := by
    refine (Manifest.validateIdentity_eq_ok (fun hc => ?_) (by decide)).mpr ⟨hv, by decide +kernel⟩
    exact absurd (hmem _ hc) (by decide)
  obtain ⟨bytes, hb⟩ := encode_bare hid hsh
  have hm := checkManifest_bare hv
  refine ⟨bare name, bytes, hb, hm, fun hd => ?_⟩
  exact absurd ((decode_encode_iff hb hm).mp hd).1 (Nat.not_le.mpr hl)

end Package

/-- A name of 4097 letters is written and not read back. -/
theorem long_name_refused : ∃ package bytes, Package.encode package = .ok bytes ∧
    package.checkManifest = .ok () ∧ Package.decode bytes ≠ .ok package := by
  have hlength := Package.utf8_length_repeated 4097
  refine Package.refused_of_long (fun c hc => ?_) (Nat.lt_of_lt_of_eq (by decide) hlength.symm)
    (Nat.le_trans (Nat.le_of_eq hlength) (by decide))
  rw [Trust.repeated, String.toList_ofList] at hc
  exact eq_of_mem_replicate hc

end Nivren
