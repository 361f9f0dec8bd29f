import Nivren.Bundle

/-! Applications attached to an executable.

An application is stored behind the bytes of an executable: its bundle, its manifest and a trailer
with the two lengths. The trailer is recognised from the end.
-/

namespace Nivren.Standalone

open Codec

def magic : Bytes := utf8 "NIVAPP3\x00"

def trailer : ℕ := 24

def maxManifest : ℕ := 1024 * 1024

structure EmbeddedApplication where
  executableLength : ℕ
  bundle : Bytes
  manifest : String
deriving DecidableEq

def error (message : String) : NivError := ⟨message, 1, 1, []⟩

/-- `extract`; a sum of lengths that overflows is larger than the executable as well. -/
def extract (executable : Bytes) : Option EmbeddedApplication := do
  if executable.length < trailer ∨ executable.drop (executable.length - magic.length) ≠ magic then
    none
  let lengths := executable.length - trailer
  let bundleLength := leValue ((executable.drop lengths).take 8)
  let manifestLength := leValue ((executable.drop (lengths + 8)).take 8)
  if manifestLength > maxManifest then none
  if lengths < bundleLength + manifestLength then none
  let executableLength := lengths - (bundleLength + manifestLength)
  let bundleEnd := executableLength + bundleLength
  let bundle := (executable.drop executableLength).take bundleLength
  if (Bundle.decode bundle).toOption.isNone then none
  let manifest ← ofUtf8 ((executable.drop bundleEnd).take manifestLength)
  return ⟨executableLength, bundle, manifest⟩

/-- The length of an executable without its application. -/
def base (executable : Bytes) : ℕ :=
  ((extract executable).map EmbeddedApplication.executableLength).getD executable.length

/-- The bytes of an executable with an application behind them. -/
def store (start bundle : Bytes) (manifest : String) : Bytes :=
  start ++ (bundle ++ (utf8 manifest ++ (leBytes 8 bundle.length ++
    (leBytes 8 (utf8 manifest).length ++ magic))))

def attach (executable bundle : Bytes) (manifest : String) : Except NivError Bytes := do
  let base := base executable
  if (utf8 manifest).length > maxManifest then throw (error "standalone manifest exceeds 1 MiB")
  let _ ← Bundle.decode bundle
  if bundle.length ≥ 2 ^ 64 then throw (error "bundle is too large")
  return store (executable.take base) bundle manifest

variable {executable bundle : Bytes} {manifest : String} {chunk : Chunk}

theorem length_magic : magic.length = 8 := by decide

theorem base_le (executable : Bytes) : base executable ≤ executable.length := by
  rw [base]
  cases h : extract executable with
  | none => simp
  | some application =>
    simp only [extract, Option.bind_eq_bind] at h
    have hl : application.executableLength ≤ executable.length := by
      simp at h
      obtain ⟨-, -, -, -, h⟩ := h
      obtain ⟨manifest, -, ha⟩ := Option.bind_eq_some_iff.mp h
      cases ha
      exact (Nat.sub_le _ _).trans (Nat.sub_le _ _)
    exact hl

section Stored

variable (hd : Bundle.decode bundle = .ok chunk) (hm : (utf8 manifest).length ≤ maxManifest)
  (hl : bundle.length < 2 ^ 64)
include hd hm hl

theorem extract_store (start : Bytes) :
    extract (store start bundle manifest) = some ⟨start.length, bundle, manifest⟩ := by
  generalize hs : store start bundle manifest = stored
  rw [store] at hs
  obtain ⟨n, hn⟩ : ∃ n, n = start.length + bundle.length + (utf8 manifest).length := ⟨_, rfl⟩
  have hlen : stored.length = n + 24 := by
    simp [← hs, length_magic, hn]
    omega
  -- what stands behind each part of the stored bytes
  have hb := hs ▸ @List.drop_left _ start _
  have hu := congrArg (List.drop bundle.length) hb
  rw [List.drop_drop, List.drop_left] at hu
  have hfirst := congrArg (List.drop (utf8 manifest).length) hu
  rw [List.drop_drop, ← hn, List.drop_left] at hfirst
  have hsecond := congrArg (List.drop 8) hfirst
  rw [List.drop_drop, List.drop_left' (leBytes_length 8 _)] at hsecond
  have hend := congrArg (List.drop 8) hsecond
  rw [List.drop_drop, List.drop_left' (leBytes_length 8 _)] at hend
  have hle : ∀ k rest, (leBytes 8 k ++ rest).take 8 = leBytes 8 k := fun k rest =>
    List.take_left' (leBytes_length 8 k)
  have hbl := @leValue_leBytes 8 _ hl
  have hml := @leValue_leBytes 8 (utf8 manifest).length (lt_of_le_of_lt hm (by decide))
  have hex : n - (bundle.length + (utf8 manifest).length) = start.length := by omega
  have hfit : ¬ n < bundle.length + (utf8 manifest).length := by omega
  have htext : ofUtf8 (utf8 manifest) = some manifest := ofUtf8_eq_some.mpr rfl
  simp [extract, hlen, length_magic, trailer, hend, hfirst, hsecond, hle, hbl, hml, hfit, hex, hb, hu,
    hd, Except.toOption, htext, Nat.not_lt.mpr hm]

/-- What is attached is extracted again, and replaces whatever application was there. -/
theorem extract_attach (executable : Bytes) : ∃ stored,
    attach executable bundle manifest = .ok stored ∧
    extract stored = some ⟨base executable, bundle, manifest⟩ ∧
    ∀ bundle' manifest', attach stored bundle' manifest' = attach executable bundle' manifest' := by
  obtain ⟨front, hf, hb⟩ : ∃ front, executable.take (base executable) = front ∧
      front.length = base executable := ⟨_, rfl, List.length_take_of_le (base_le executable)⟩
  have hex := hb ▸ extract_store hd hm hl front
  have hba : base (store front bundle manifest) = base executable := by rw [base, hex]; rfl
  refine ⟨_, ?_, hex, fun bundle' manifest' => ?_⟩
  · simp only [attach, unless_eq_ok_iff, bind_eq_ok_iff, hf]
    exact ⟨Nat.not_lt.mpr hm, chunk, hd, Nat.not_le.mpr hl, rfl⟩
  · have ht : (store front bundle manifest).take (base executable) = front := List.take_left' hb
    simp only [attach, hba, ht, hf]

end Stored

/-- A bundle of one instruction, which gives `null`. -/
def nullBundle : Bytes := [78, 73, 86, 66, 8, 0, 1, 0, 0, 0, 1, 0, 0, 0, 1, 0, 0, 0, 0, 4]

theorem extract_attach_null :
    ∃ stored, attach magic nullBundle "m" = .ok stored ∧
      extract stored = some ⟨base magic, nullBundle, "m"⟩ ∧
      ∀ bundle' manifest', attach stored bundle' manifest' = attach magic bundle' manifest' :=
  extract_attach rfl (by decide) (by decide) magic

end Nivren.Standalone
