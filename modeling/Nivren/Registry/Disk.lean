import Nivren.Registry.Archive

/-! The disk as the package commands use it.

A command runs on a tree of files and keeps a record of the places it names to the operating system.
There are no links, so the checks for them only ask whether a place can be inspected.
-/

namespace Nivren

open Codec FileTree List

/-- A file; one that cannot be read is there all the same. -/
structure File where
  bytes : Bytes
  readable : Bool
deriving DecidableEq

structure Disk where
  tree : Node File
  touched : List Path

abbrev OnDisk := Program.Fallible NivError Disk

/-- What the operating system says. -/
def faultText : Fault → String
  | .notFound => "No such file or directory (os error 2)"
  | .notADirectory => "Not a directory (os error 20)"
  | .isADirectory => "Is a directory (os error 21)"
  | .alreadyExists => "File exists (os error 17)"
  | .notEmpty => "Directory not empty (os error 39)"
  | .invalid => "Invalid argument (os error 22)"
  | .denied => "Permission denied (os error 13)"

def display (place : Path) : String := "/" ++ "/".intercalate place

namespace Disk

def touch (place : Path) (d : Disk) : Disk := { d with touched := place :: d.touched }

variable {α : Type}

def inspect (place : Path) (f : Node File → α) : OnDisk α := do
  Program.write (touch place)
  Program.read fun d => f d.tree

/-- What an operation makes of the tree. -/
def change (place : Path) (f : Node File → Except Fault (Node File)) : OnDisk (Except Fault Unit) := do
  match ← inspect place f with
  | .ok tree =>
    Program.write fun d => { d with tree }
    return .ok ()
  | .error fault => return .error fault

def bytesAt (place : Path) (tree : Node File) : Except Fault Bytes := do
  let file ← FileTree.read place tree
  if file.readable then .ok file.bytes else .error .denied

def textAt (place : Path) (tree : Node File) : Option String :=
  (bytesAt place tree).toOption.bind ofUtf8

/-- `fs::read`. -/
def read (place : Path) : OnDisk (Except Fault Bytes) := inspect place (bytesAt place)

/-- `fs::read_to_string`, without the reason for a failure. -/
def readToString (place : Path) : OnDisk (Option String) := inspect place (textAt place)

/-- `Path::exists`. -/
def «exists» (place : Path) : OnDisk Bool := inspect place (FileTree.exists place)

/-- `Path::is_dir`. -/
def isDir (place : Path) : OnDisk Bool :=
  inspect place fun tree => tree.look place matches some .dir

/-- What a file at a place is after it has been written: it stays readable or not. -/
def rewritten (bytes : Bytes) (place : Path) (tree : Node File) : File :=
  match tree.look place with
  | some (.file old) => { old with bytes }
  | _ => ⟨bytes, true⟩

/-- `fs::write`. -/
def write (place : Path) (bytes : Bytes) : OnDisk (Except Fault Unit) :=
  change place fun tree => FileTree.write place (rewritten bytes place tree) tree

/-- `fs::create_dir`. -/
def createDir (place : Path) : OnDisk (Except Fault Unit) := change place (FileTree.createDir place)

/-- `fs::create_dir_all`. -/
def createDirAll (place : Path) : OnDisk (Except Fault Unit) :=
  change place (FileTree.createDirAll place)

/-- `fs::remove_dir_all`. -/
def removeDirAll (place : Path) : OnDisk (Except Fault Unit) :=
  change place (FileTree.removeDirAll place)

/-- `fs::rename`. -/
def rename (source target : Path) : OnDisk (Except Fault Unit) := do
  Program.write (touch source)
  change target (FileTree.rename source target)

/-- `map_err`: a fault becomes an error of the command. -/
def orFail (m : OnDisk (Except Fault α)) (toError : Fault → NivError) : OnDisk α := do
  match ← m with
  | .ok a => return a
  | .error fault => throw (toError fault)

/-- Why a place cannot be inspected; that nothing stands there is no reason. -/
def inspectFault (place : Path) (tree : Node File) : Option Fault :=
  if FileTree.exists place tree then none
  else match tree.missing place with
  | .notFound => none
  | fault => some fault

/-- `reject_symlink_if_present`. -/
def rejectSymlinkIfPresent (place : Path) : OnDisk Unit := do
  match ← inspect place (inspectFault place) with
  | none => return
  | some fault => throw (packageError
      ("cannot inspect dependency path '" ++ display place ++ "': " ++ faultText fault))

/-- The file a place is written through: the process writes its number for the extension. -/
def temporary (processId : ℕ) (place : Path) : Path :=
  place.dropLast ++ [String.ofList (stem (place.getLastD "").toList ++
    '.' :: ("tmp-" ++ toString processId).toList)]

def writeRefusal (place : Path) (fault : Fault) : NivError :=
  packageError ("cannot write " ++ display place ++ ": " ++ faultText fault)

/-- `write_atomic`. -/
def writeAtomic (processId : ℕ) (place : Path) (contents : Bytes) : OnDisk Unit := do
  orFail (write (temporary processId place) contents) (writeRefusal place)
  orFail (rename (temporary processId place) place) (writeRefusal place)

@[simp] theorem tree_touch (place : Path) (d : Disk) : (d.touch place).tree = d.tree := rfl

@[simp] theorem exec_inspect (place : Path) (f : Node File → α) (d : Disk) :
    Program.exec (inspect place f) d = (.ok (f d.tree), d.touch place) := rfl

variable {place : Path} {tree : Node File}

theorem bytesAt_eq_ok {bytes : Bytes} :
    bytesAt place tree = .ok bytes ↔ tree.look place = some (.file ⟨bytes, true⟩) := by
  unfold bytesAt
  rw [bind_eq_ok_iff]
  constructor
  · rintro ⟨⟨contents, readable⟩, hr, h⟩
    cases readable with
    | false => cases h
    | true =>
      cases h
      exact read_eq_ok.mp hr
  · exact fun h => ⟨⟨bytes, true⟩, read_eq_ok.mpr h, rfl⟩

theorem textAt_eq_some {text : String} :
    textAt place tree = some text ↔ tree.look place = some (.file ⟨utf8 text, true⟩) := by
  rw [textAt, Option.bind_eq_some_iff, ← bytesAt_eq_ok]
  constructor
  · rintro ⟨bytes, hb, hte⟩
    rw [ofUtf8_eq_some.mp hte] at hb
    cases hr : bytesAt place tree with
    | error fault =>
      rw [hr] at hb
      cases hb
    | ok found =>
      rw [hr] at hb
      exact congrArg Except.ok (Option.some.inj hb)
  · intro h
    exact ⟨utf8 text, by rw [h]; rfl, ofUtf8_eq_some.mpr rfl⟩

variable {f : Node File → Except Fault (Node File)} {m : OnDisk (Except Fault α)} {contents : Bytes}
  {processId : ℕ}

section Ensures

open Program

variable {d : Disk} {place : Path} {R : NivError → Disk → Prop} {Q : α → Disk → Prop}

@[simp] theorem ensures_inspect {f : Node File → α} :
    Ensures (inspect place f) d Q R ↔ Q (f d.tree) (d.touch place) := Iff.rfl

theorem ensures_change {Q : Except Fault Unit → Disk → Prop}
    (hok : ∀ t, f d.tree = .ok t → Q (.ok ()) ⟨t, place :: d.touched⟩)
    (her : ∀ fault, f d.tree = .error fault → Q (.error fault) (d.touch place)) :
    Ensures (change place f) d Q R := by
  rw [change, ensures_bind, ensures_inspect]
  cases h : f d.tree with
  | ok t => exact hok t h
  | error fault => exact her fault h

variable {toError : Fault → NivError}

theorem ensures_orFail (h : Ensures m d (fun r d' => (∀ a, r = .ok a → Q a d') ∧
      ∀ fault, r = .error fault → R (toError fault) d') R) : Ensures (orFail m toError) d Q R := by
  refine h.bind fun r d' hr => ?_
  cases r with
  | ok a => exact hr.1 a rfl
  | error fault => exact hr.2 fault rfl

theorem ensures_orFail_change
    {Q : Unit → Disk → Prop} (hok : ∀ t, f d.tree = .ok t → Q () ⟨t, place :: d.touched⟩)
    (her : ∀ fault, f d.tree = .error fault → R (toError fault) (d.touch place)) :
    Ensures (orFail (change place f) toError) d Q R := by
  refine ensures_orFail (ensures_change (fun t ht => ?_) fun fault hf => ?_)
  · exact ⟨fun _ _ => hok t ht, nofun⟩
  · refine ⟨nofun, ?_⟩
    rintro _ ⟨⟩
    exact her fault hf

theorem ensures_rename {source target : Path} {Q : Except Fault Unit → Disk → Prop}
    (hok : ∀ t, FileTree.rename source target d.tree = .ok t →
      Q (.ok ()) ⟨t, target :: source :: d.touched⟩)
    (her : ∀ fault, FileTree.rename source target d.tree = .error fault →
      Q (.error fault) ((d.touch source).touch target)) :
    Ensures (rename source target) d Q R := by
  rw [rename, ensures_bind, ensures_write]
  exact ensures_change hok her

theorem ensures_unless_exists {e : NivError} {k : PUnit → OnDisk α}
    (hth : d.tree.look place ≠ none → R e (d.touch place))
    (hf : d.tree.look place = none → Ensures (k ⟨⟩) (d.touch place) Q R) :
    Ensures (Disk.exists place >>= fun there =>
      if there = true then (throw e : OnDisk PUnit) >>= k else k ⟨⟩) d Q R := by
  rw [ensures_bind, Disk.exists, ensures_inspect, FileTree.exists]
  cases h : d.tree.look place with
  | none =>
    rw [if_neg (by simp)]
    exact hf h
  | some entry =>
    have hr : R e (d.touch place) := hth (by simp [h])
    simpa using hr

theorem ensures_writeAtomic (hne : ¬ temporary processId place <+: place) :
    Ensures (writeAtomic processId place contents) d (fun _ d' => d'.tree.look place =
        some (.file (rewritten contents (temporary processId place) d.tree)))
      fun _ _ => ¬ (place ≠ [] ∧ d.tree.look place.dropLast = some .dir ∧
        d.tree.look (temporary processId place) ≠ some .dir ∧ d.tree.look place ≠ some .dir) := by
  have hsi : temporary processId place ≠ place := by
    intro heq
    rw [heq] at hne
    exact hne prefix_rfl
  have htop : temporary processId place ≠ [] := by simp [temporary]
  have hp : (temporary processId place).dropLast = place.dropLast := by
    rw [temporary, dropLast_concat]
  rw [writeAtomic, ensures_bind]
  refine ensures_orFail_change (fun t hw => ?_) fun fault hf => ?_
  · have hl := look_write hw
    refine ensures_orFail (ensures_rename (fun t' hr => ?_) fun fault hf => ?_)
    · refine ⟨fun _ _ => ?_, nofun⟩
      rw [look_rename hr hsi, if_pos prefix_rfl, drop_length, append_nil, hl, if_pos rfl]
    · refine ⟨nofun, ?_⟩
      rintro _ ⟨⟩ ⟨hpl, hdir, -, hfr⟩
      have hup : place.dropLast ≠ temporary processId place := by
        intro heq
        rw [← heq] at hne
        exact hne (List.dropLast_prefix place)
      obtain ⟨t', hok⟩ := @rename_file_isOk _ t (temporary processId place) place _
        (by rw [hl, if_pos rfl]) htop hne hpl (by rwa [hl, if_neg hsi.symm])
        (by rwa [hl, if_neg hup])
      rw [hok] at hf
      cases hf
  · rintro ⟨-, hdir, hte, -⟩
    obtain ⟨t, hok⟩ := @write_isOk _ (temporary processId place) d.tree
      (rewritten contents (temporary processId place) d.tree) htop (by rwa [hp]) hte
    rw [hok] at hf
    cases hf

theorem ensures_writeAtomic_kept (hne : ¬ temporary processId place <+: place) :
    Ensures (writeAtomic processId place contents) d (fun _ _ => True)
      fun _ d' => d'.tree.look place = d.tree.look place := by
  rw [writeAtomic, ensures_bind]
  refine ensures_orFail_change (fun t hw => ?_) fun _ _ => rfl
  have hke : t.look place = d.tree.look place := by
    rw [look_write hw, if_neg]
    rintro heq
    rw [← heq] at hne
    exact hne prefix_rfl
  refine ensures_orFail (ensures_rename (fun _ _ => ⟨fun _ _ => trivial, nofun⟩) fun fault _ => ?_)
  exact ⟨nofun, fun _ _ => hke⟩

end Ensures

section Moves

open Program

variable {R : Disk → Disk → Prop} [Std.Refl R] [IsTrans Disk R]

theorem moves_orFail (h : Moves R m) (toError : Fault → NivError) : Moves R (orFail m toError) := by
  refine h.bind fun r => ?_
  cases r with
  | ok a => exact .pure a
  | error fault => exact .throw _

theorem moves_rejectSymlinkIfPresent {place : Path} (h : ∀ {f : Node File → Option Fault}, Moves R (inspect place f)) :
    Moves R (rejectSymlinkIfPresent place) := by
  refine h.bind fun fault => ?_
  cases fault with
  | none => exact .pure ()
  | some fault => exact .throw _

end Moves

section Leaves

open Program

variable {place q : Path}

def seen (q : Path) (d : Disk) : Option (Entry File) := d.tree.look q

def below (place : Path) (d : Disk) (q : Path) : Option (Entry File) := d.seen (place ++ q)

theorem leaves_inspect {f : Node File → α} : Leaves Disk.tree (inspect place f) := fun _ => rfl

theorem seen_congr {d d' : Disk} (h : d'.tree = d.tree) : d'.seen q = d.seen q :=
  congrArg (fun tree => tree.look q) h

theorem leaves_seen {m : OnDisk α} (h : Leaves Disk.tree m) (q : Path) : Leaves (seen q) m :=
  h.mono (g := fun tree => tree.look q)

theorem leaves_below {m : OnDisk α} (h : ∀ q, Leaves (seen (place ++ q)) m) : Leaves (below place) m :=
  .all h

theorem leaves_change
    (h : ∀ t t', f t = .ok t' → t'.look q = t.look q) : Leaves (seen q) (change place f) := by
  intro d
  rw [change, exec_bind, exec_inspect]
  cases hf : f d.tree with
  | error fault => rfl
  | ok t => exact h d.tree t hf

theorem leaves_write {bytes : Bytes} (h : q ≠ place) : Leaves (seen q) (write place bytes) :=
  leaves_change fun t t' ht => by rw [look_write ht, if_neg h]

theorem leaves_createDir (h : q ≠ place) : Leaves (seen q) (createDir place) :=
  leaves_change fun t t' ht => by rw [look_createDir ht, if_neg h]

theorem leaves_createDirAll (h : ¬ q <+: place) : Leaves (seen q) (createDirAll place) :=
  leaves_change fun t t' ht => (look_createDirsFrom ht q).2 fun hb => h (by simpa using hb.2.2)

theorem leaves_removeDirAll (h : ¬ place <+: q) : Leaves (seen q) (removeDirAll place) :=
  leaves_change fun t t' ht => by rw [look_removeDirAll ht, if_neg h]

theorem leaves_rename {source target : Path} (hso : ¬ source <+: q) (hta : ¬ target <+: q) :
    Leaves (seen q) (rename source target) := by
  refine .bind (.write fun _ => rfl) fun _ => leaves_change fun t t' ht => ?_
  by_cases hsa : source = target
  · unfold FileTree.rename at ht
    split at ht
    · cases ht
    · rw [if_pos hsa] at ht
      cases ht
      rfl
  · rw [look_rename ht hsa, if_neg hta, if_neg hso]

theorem leaves_rejectSymlinkIfPresent : Leaves Disk.tree (rejectSymlinkIfPresent place) :=
  moves_rejectSymlinkIfPresent leaves_inspect

theorem leaves_writeAtomic (hp : ¬ place <+: q) (hte : ¬ temporary processId place <+: q) :
    Leaves (seen q) (writeAtomic processId place contents) :=
  have hne : q ≠ temporary processId place := fun heq => hte (heq ▸ prefix_rfl)
  .bind (moves_orFail (leaves_write hne) _) fun _ =>
    moves_orFail (leaves_rename hte hp) _

end Leaves

/-- What is touched on the way lies inside. -/
def Keeping (inside : Path → Prop) (d d' : Disk) : Prop :=
  ∀ place ∈ d'.touched, place ∈ d.touched ∨ inside place

variable {inside : Path → Prop}

instance : Std.Refl (Keeping inside) := ⟨fun _ _ => .inl⟩

instance : IsTrans Disk (Keeping inside) :=
  ⟨fun _ _ _ h h' place hp => (h' place hp).elim (h place) .inr⟩

abbrev Stays (inside : Path → Prop) (m : OnDisk α) : Prop := Program.Moves (Keeping inside) m

namespace Keeping

theorem touch (h : inside place) :
    Stays inside (Program.write (Disk.touch place) : OnDisk Unit) := by
  intro d other hot
  rcases mem_cons.mp hot with rfl | hot
  · exact .inr h
  · exact .inl hot

theorem inspect {f : Node File → α} (h : inside place) : Stays inside (Disk.inspect place f) :=
  .bind (touch h) fun _ => .read

theorem change (h : inside place) : Stays inside (Disk.change place f) := by
  refine .bind (inspect h) fun r => ?_
  cases r with
  | error fault => exact .pure _
  | ok tree => exact .bind (fun _ _ => .inl) fun _ => .pure _

theorem writeAtomic (h : inside place) (hte : inside (temporary processId place)) :
    Stays inside (Disk.writeAtomic processId place contents) :=
  .bind (moves_orFail (change hte) _) fun _ => moves_orFail (.bind (touch hte) fun _ => change h) _

end Keeping

end Disk

end Nivren
