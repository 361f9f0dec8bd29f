import Nivren.Value
import Nivren.Library.Text

/-! The scopes of granted capabilities.

A scope restricts an effect by its first arguments. Most scopes are clauses that all have to hold, and
a clause lists its choices after a key. Whether a path or a host lies within another one is left open
here.
-/

namespace Nivren

def splitAt (separator : Char) (text : String) : List String :=
  (text.toList.splitOn separator).map String.ofList

/-- `strip_prefix`. -/
def strip ( pre : String) (text : String) : Option String :=
  if pre.toList.isPrefixOf text.toList then some (String.ofList (text.toList.drop pre.length))
  else none

def stringArgument (arguments : List (Value Chunk)) (index : Nat) : Option String :=
  match arguments.drop index with
  | .string text :: _ => some text
  | _ => none

def choiceAllows (key clause : String) (matching : String → Bool) : Bool :=
  (strip key clause).any fun choices => (splitAt ',' choices).any matching

section Scopes

-- `path_is_within` asks the file system, `host_is_within` compares host names
variable (pathIsWithin hostIsWithin : String → String → Bool)

/-- `network_scope_allows`. -/
def networkScopeAllows (scope target : String) (method : Option String) : Bool :=
  (splitAt ';' scope).all fun clause =>
    choiceAllows "host:" clause (hostIsWithin target) || choiceAllows "method:" clause fun choice =>
        method.any fun method => choice.map Char.toLower == method.map Char.toLower

/-- `process_scope_allows`. -/
def processScopeAllows (scope command : String) (firstArgument : Option String) : Bool :=
  (splitAt ';' scope).all fun clause =>
    choiceAllows "command:" clause (· == command) ||
      choiceAllows "arg0:" clause fun choice => firstArgument.any (choice == ·)

def firstArgument (arguments : List (Value Chunk)) : Option String :=
  match arguments.drop 1 with
  | .array values :: _ => stringArgument values 0
  | _ => none

/-- The handles of network resources, which only an authorized call creates. -/
def networkHandle : HandleKind → Bool
  | .tcpListener | .tlsListener | .tcpStream | .tlsStream | .webSocket => true
  | _ => false

/-- The target of a network operation and its method stand at fixed places. -/
def networkTarget (operation : String) (arguments : List (Value Chunk)) :
    Option String × Option String :=
  if operation = "get" then (stringArgument arguments 0, some "GET")
  else if operation = "request" then (stringArgument arguments 1, stringArgument arguments 0)
  else (stringArgument arguments 0, none)

def pathScopeAllows (scope target : String) : Bool :=
  (strip "path:" scope).any (pathIsWithin target)

/-- `authorize_scope`: whether the arguments of an effect lie inside a scope. -/
def scopeAllows (capability operation scope : String) (arguments : List (Value Chunk)) : Bool :=
  if capability = "FileRead" ∨ capability = "FileWrite" then
    match arguments.head? with
    | some (.string target) => pathScopeAllows pathIsWithin scope target
    | some (.handle .file _) => true
    | _ => false
  else if capability = "Network" then
    match arguments.head? with
    | some (.handle kind _) => networkHandle kind || targetAllowed
    | _ => targetAllowed
  else if capability = "Environment" then
    match arguments.head? with
    | some (.string target) => strip "name:" scope == some target ||
        (strip "prefix:" scope).any fun pre => pre.toList.isPrefixOf target.toList
    | _ => false
  else if capability = "Process" then
    match arguments.head? with
    | some (.string target) => processScopeAllows scope target (firstArgument arguments)
    | _ => false
  else if capability = "Native" then
    match arguments.head? with
    | some (.string target) =>
      if operation = "open" then pathScopeAllows pathIsWithin scope target
      else (strip "kind:" scope).any fun kind => kind == "*" || kind == target
    | some (.handle .nativeHandle _) | some (.handle .nativeLibrary _) => true
    | _ => false
  else false
where
  targetAllowed : Bool :=
    let (target, method) := networkTarget operation arguments
    target.any fun target => networkScopeAllows hostIsWithin scope target method

end Scopes

section Clauses

theorem strip_eq_some {pre text rest : String} : strip pre text = some rest ↔ text = pre ++ rest := by
  unfold strip
  split
  next h =>
    obtain ⟨tail, hta⟩ := List.isPrefixOf_iff_prefix.mp h
    have hd : text.toList.drop pre.length = tail := by
      rw [← hta, ← String.length_toList, List.drop_left]
    rw [hd, Option.some_inj]
    constructor
    · rintro rfl
      rw [← String.toList_inj, String.toList_append, String.toList_ofList, hta]
    · rintro rfl
      rw [String.toList_append] at hta
      rw [List.append_cancel_left hta, String.ofList_toList]
  next h =>
    refine ⟨fun hn => (nomatch hn), ?_⟩
    rintro rfl
    exact absurd (List.isPrefixOf_iff_prefix.mpr ⟨rest.toList, (String.toList_append ..).symm⟩) h

theorem mem_splitAt {separator : Char} {text piece : String} :
    piece ∈ splitAt separator text ↔ piece.toList ∈ text.toList.splitOn separator := by
  rw [splitAt, List.mem_map]
  constructor
  · rintro ⟨part, hp, rfl⟩
    rwa [String.toList_ofList]
  · intro h
    exact ⟨piece.toList, h, String.ofList_toList⟩

theorem choiceAllows_iff {key clause : String} {matching : String → Bool} :
    choiceAllows key clause matching = true ↔
      ∃ choices, clause = key ++ choices ∧ ∃ choice ∈ splitAt ',' choices, matching choice = true := by
  simp only [choiceAllows, Option.any_eq_true, strip_eq_some, List.any_eq_true]

variable {hostIsWithin : String → String → Bool}

theorem networkScopeAllows_iff {scope target : String} {method : Option String} :
    networkScopeAllows hostIsWithin scope target method = true ↔ ∀ clause ∈ splitAt ';' scope,
        (∃ choices, clause = "host:" ++ choices ∧
          ∃ entry ∈ splitAt ',' choices, hostIsWithin target entry = true) ∨
        ∃ choices, clause = "method:" ++ choices ∧ ∃ choice ∈ splitAt ',' choices,
          ∃ sent, method = some sent ∧ choice.map Char.toLower = sent.map Char.toLower := by
  simp only [networkScopeAllows, List.all_eq_true, Bool.or_eq_true, choiceAllows_iff,
    Option.any_eq_true, beq_iff_eq]

end Clauses

end Nivren
