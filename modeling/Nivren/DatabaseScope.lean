import Nivren.NetworkScope

/-! The servers a database handle may dial.

The runtime checks one host of a configuration against the network scope, the driver reads the same
text in its own way. A scope confines a configuration exactly when every host of the driver is let
through wherever the checked host is.
-/

namespace Nivren

open List

section Check

variable (pathIsWithin : String → String → Bool)

structure Grants where
  capabilities : Option (List String)
  capabilityScopes : List (String × String)

/-- `authorize_scope`. -/
def Grants.authorizeScope (grants : Grants) (capability operation : String)
    (arguments : List (Value Chunk)) (span : Span) : Except NivError Unit :=
  match grants.capabilityScopes.lookup capability with
  | none => .ok ()
  | some scope =>
    if scopeAllows pathIsWithin hostIsWithin capability operation scope arguments then .ok ()
    else .error (errorAt ("this " ++ capability ++ " operation is outside the project grant '" ++
      scope ++ "'") span)

def hostOfAuthority (hos : List Char) : List Char :=
  match hos.dropPrefix? ['['] with
  | some bracketed => bracketed.takeWhile (· ≠ ']')
  | none => hos.takeWhile (· ≠ ':')

def endsAuthority (c : Char) : Bool := c = '/' ∨ c = '?'

def remoteDatabaseHost (configuration : List Char) : Option (List Char) :=
  (["postgres://", "postgresql://", "mysql://"].findSome? fun scheme =>
    configuration.dropPrefix? scheme.toList).map fun rest =>
    let authority := rest.takeWhile (!endsAuthority ·)
    let host := hostOfAuthority (authority.rtakeWhile (· ≠ '@'))
    if host = [] then "localhost".toList else host

/-- What `host_open_handle` checks before it passes a configuration on. -/
def Grants.openDatabase (grants : Grants) (configuration : List Char) (span : Span) :
    Except NivError Unit :=
  match remoteDatabaseHost configuration with
  | none => .ok ()
  | some host =>
    if grants.capabilities.any fun allowed => "Network" ∉ allowed then
      .error (errorAt ("opening a remote database needs Network; add Network = \"host:…\" under " ++
        "[capabilities] in niv.toml") span)
    else
      grants.authorizeScope pathIsWithin "Network" "connect" [.string (String.ofList host)] span

end Check

/-- The hosts of a PostgreSQL URL behind its scheme: the credentials reach to the first `@`, a list
of hosts with ports to the next `/` or `?`, and the query may name more hosts. -/
def postgresHosts (rest : List Char) : List (List Char) :=
  let location := ((Text.splitOnce '@' rest).map Prod.snd).getD rest
  let hosts := location.takeWhile (!endsAuthority ·)
  let query := ((Text.splitOnce '?' (location.drop hosts.length)).map Prod.snd).getD []
  let listed := if hosts = [] then [] else (hosts.splitOn ',').map hostOfAuthority
  let parameters := (query.splitOn '&').flatMap fun parameter =>
    match Text.splitOnce '=' parameter with
    | some (key, value) =>
      if key = "host".toList ∨ key = "hostaddr".toList then value.splitOn ',' else []
    | none => []
  listed ++ parameters

variable {configuration : List Char}

section Driver

variable (mysqlHosts : List Char → List (List Char))

/-- The hosts that `DatabaseHost::open` may dial for a configuration. -/
def databaseHosts (configuration : List Char) : List (List Char) :=
  if configuration = [] ∨ (String.ofList configuration).utf8ByteSize > 4096 then []
  else if "memory://".toList <+: configuration ∨ "sqlite:".toList <+: configuration then []
  else
    match ["postgres://", "postgresql://"].findSome? fun scheme =>
      configuration.dropPrefix? scheme.toList with
    | some rest => postgresHosts rest
    | none =>
      if (configuration.dropPrefix? "mysql://".toList).isSome then mysqlHosts configuration else []

theorem databaseHosts_of_local
    (h : remoteDatabaseHost configuration = none) : databaseHosts mysqlHosts configuration = [] := by
  rw [remoteDatabaseHost, Option.map_eq_none_iff, List.findSome?_eq_none_iff] at h
  have hp : (["postgres://", "postgresql://"].findSome? fun scheme =>
      configuration.dropPrefix? scheme.toList) = none := by
    rw [List.findSome?_eq_none_iff]
    intro scheme hsc
    exact h scheme (mem_append_left ["mysql://"] hsc)
  rw [databaseHosts, hp, h "mysql://" (mem_append_right ["postgres://", "postgresql://"]
    (mem_singleton_self _))]
  split
  · rfl
  split <;> rfl

end Driver

variable {host : List Char}

section Scopes

/-- An entry can be the name itself. -/
structure Plain (name : List Char) : Prop where
  comma : ',' ∉ name
  semicolon : ';' ∉ name
  wildcard : ∀ suffix, name ≠ '*' :: '.' :: suffix

/-- Every entry that lets a name through lets the other host through: it has the same name, or where
no entry can be the name, it lies below the same domains. -/
structure Follows (name : List Char) (other : Option (List Char)) : Prop where
  same : Plain name → other = some name
  below : ∀ suffix, ',' ∉ suffix → ';' ∉ suffix → '.' :: suffix <:+ name →
    ∃ found, other = some found ∧ '.' :: suffix <:+ found

def nameOf (target : String) : Option (List Char) := (dialledHost target).map plainName

theorem hostIsWithin_iff_nameOf {target entry : String} : hostIsWithin target entry = true ↔
      ∃ name, nameOf target = some name ∧ entryAdmits entry.toList name = true := by
  rw [hostIsWithin_iff]
  simp [nameOf]

theorem entries_iff_follows {other : Option (List Char)} :
    (∀ entry, ',' ∉ entry → ';' ∉ entry → entryAdmits entry (plainName host) = true →
      ∃ name, other = some name ∧ entryAdmits entry name = true) ↔
      Follows (plainName host) other := by
  have hend := getLast?_plainName host
  constructor
  · intro h
    refine ⟨fun hp => ?_, fun suffix hcm hsm hsu => ?_⟩
    · have hsl : plainName (plainName host) = plainName host :=
        plainName_eq_self (fun c hc => toLower_of_mem_plainName hc) hend
      obtain ⟨name, hn, ha⟩ := h (plainName host) hp.comma hp.semicolon
        (entryAdmits_iff.mpr (.inr ⟨fun suffix => by rw [hsl]; exact hp.wildcard suffix,
          hsl.symm⟩))
      rcases entryAdmits_iff.mp ha with ⟨suffix, hsu, -⟩ | ⟨-, heq⟩
      · rw [hsl] at hsu
        exact absurd hsu (hp.wildcard suffix)
      · rw [hn, heq, hsl]
    · obtain ⟨labels, hl⟩ := hsu
      have hen := plainName_wildcard hl.symm
      obtain ⟨name, hn, ha⟩ := h ('*' :: '.' :: suffix) (by simpa using hcm) (by simpa using hsm)
        (entryAdmits_iff.mpr (.inl ⟨suffix, hen, labels, hl⟩))
      refine ⟨name, hn, ?_⟩
      rcases entryAdmits_iff.mp ha with ⟨other, hot, hb⟩ | ⟨hno, -⟩
      · obtain rfl : suffix = other := by simpa [hen] using hot
        exact hb
      · exact absurd hen (hno suffix)
  · intro h entry hcm hsm ha
    have hco := notMem_plainName hcm (by decide)
    have hse := notMem_plainName hsm (by decide)
    rcases entryAdmits_iff.mp ha with ⟨suffix, hen, hb⟩ | ⟨hno, heq⟩
    · rw [hen] at hco hse
      obtain ⟨name, hn, hf⟩ := h.below suffix (fun hc => hco (by simp [hc]))
        (fun hc => hse (by simp [hc])) hb
      exact ⟨name, hn, entryAdmits_iff.mpr (.inl ⟨suffix, hen, hf⟩)⟩
    · have hp : Plain (plainName host) := by
        rw [heq]
        exact ⟨hco, hse, hno⟩
      exact ⟨plainName host, h.same hp, ha⟩

theorem scopes_iff_follows {target other : String} (hh : dialledHost target = some host) :
    (∀ scope, networkScopeAllows hostIsWithin scope target none = true →
      networkScopeAllows hostIsWithin scope other none = true) ↔
      Follows (plainName host) (nameOf other) := by
  have hn : nameOf target = some (plainName host) := by rw [nameOf, hh, Option.map_some]
  have hw : ∀ entry : String, hostIsWithin target entry = true ↔
      entryAdmits entry.toList (plainName host) = true := by
    intro entry
    rw [hostIsWithin_iff_nameOf, hn]
    simp
  rw [← entries_iff_follows]
  constructor
  · intro h entry hc hse had
    obtain ⟨text, rfl⟩ : ∃ text : String, text.toList = entry :=
      ⟨String.ofList entry, String.toList_ofList⟩
    have ha := h (entryScope text)
    rw [networkScopeAllows_entryScope hc hse,
      networkScopeAllows_entryScope hc hse, hw, hostIsWithin_iff_nameOf] at ha
    exact ha had
  · intro h scope ha
    rw [networkScopeAllows_iff] at ha ⊢
    intro clause hcl
    rcases ha clause hcl with
      ⟨choices, rfl, entry, hen, had⟩ | ⟨choices, -, choice, -, sent, hsn, -⟩
    · obtain ⟨hc, hse⟩ := notMem_of_entry hcl hen
      have hot := h entry.toList hc hse ((hw entry).mp had)
      exact .inl ⟨choices, rfl, entry, hen, hostIsWithin_iff_nameOf.mpr hot⟩
    · cases hsn

end Scopes

section Checked

theorem hostOfAuthority_subset (hos : List Char) : hostOfAuthority hos ⊆ hos := by
  unfold hostOfAuthority
  split
  next bracketed hb =>
    rw [Text.dropPrefix?_eq_some.mp hb]
    exact subset_append_of_subset_right _ (takeWhile_subset _)
  · exact takeWhile_subset _

theorem notMem_remoteDatabaseHost
    (h : remoteDatabaseHost configuration = some host) : '/' ∉ host := by
  rw [remoteDatabaseHost, Option.map_eq_some_iff] at h
  obtain ⟨rest, -, h⟩ := h
  dsimp only at h
  split at h
  · rw [← h]
    decide +kernel
  · rw [← h]
    intro hmem
    have ha := (rtakeWhile_suffix _ _).subset (hostOfAuthority_subset _ hmem)
    have hen := mem_takeWhile_imp ha
    simp [endsAuthority] at hen

theorem dialledHost_remoteDatabaseHost (h : remoteDatabaseHost configuration = some host) :
    dialledHost (String.ofList host) = some host := by
  have hsl := notMem_remoteDatabaseHost h
  have hl : (String.ofList host).toList = host := String.toList_ofList
  rw [dialledHost, hl]
  refine if_neg ?_
  rintro (hurl | hurl)
  · exact hsl (hurl.subset (by decide +kernel))
  · exact hsl (hurl.subset (by decide +kernel))

theorem scopeAllows_connect (pathIsWithin : String → String → Bool) (scope host : String) :
    scopeAllows pathIsWithin hostIsWithin "Network" "connect" scope [.string host] =
      networkScopeAllows hostIsWithin scope host none := rfl

theorem openDatabase_eq_ok {grants : Grants} {pathIsWithin : String → String → Bool}
    {checked : List Char} {span : Span} {scope : String}
    (hc : remoteDatabaseHost configuration = some checked)
    (hsc : grants.capabilityScopes.lookup "Network" = some scope) :
    grants.openDatabase pathIsWithin configuration span = .ok () ↔
      (grants.capabilities.any fun allowed => "Network" ∉ allowed) = false ∧
        networkScopeAllows hostIsWithin scope (String.ofList checked) none = true := by
  rw [Grants.openDatabase, hc]
  dsimp only
  rw [Grants.authorizeScope, hsc]
  dsimp only
  rw [scopeAllows_connect]
  cases grants.capabilities.any fun allowed => "Network" ∉ allowed with
  | true =>
    exact ⟨fun h => (nomatch h), fun h => (nomatch h.1)⟩
  | false =>
    rw [if_neg Bool.false_ne_true]
    split
    next ha => exact ⟨fun _ => ⟨rfl, ha⟩, fun _ => rfl⟩
    next ha => exact ⟨fun h => (nomatch h), fun h => absurd h.2 ha⟩

end Checked

/-- A network scope confines the hosts of a configuration, whatever the scope, exactly if the name of
every dialled host follows the name of the checked host. -/
theorem database_hosts_confined_iff (mysqlHosts : List Char → List (List Char))
    (configuration : List Char) :
    (∀ (grants : Grants) (pathIsWithin : String → String → Bool) (span : Span) (scope : String),
      grants.capabilityScopes.lookup "Network" = some scope →
      grants.openDatabase pathIsWithin configuration span = .ok () →
      ∀ host ∈ databaseHosts mysqlHosts configuration,
        networkScopeAllows hostIsWithin scope (String.ofList host) none = true) ↔
    ∀ checked, remoteDatabaseHost configuration = some checked →
      ∀ host ∈ databaseHosts mysqlHosts configuration,
        Follows (plainName checked) (nameOf (String.ofList host)) := by
  constructor
  · intro h checked hchecked host hhost
    rw [← scopes_iff_follows (dialledHost_remoteDatabaseHost hchecked)]
    intro scope hscope
    have hopen : (⟨none, [("Network", scope)]⟩ : Grants).openDatabase (fun _ _ => false)
        configuration ⟨1, 1⟩ = .ok () := by
      rw [openDatabase_eq_ok hchecked (lookup_cons_self ..)]
      exact ⟨rfl, hscope⟩
    exact h _ _ _ scope (lookup_cons_self ..) hopen host hhost
  · intro h grants pathIsWithin span scope hscope hopen host hhost
    cases hchecked : remoteDatabaseHost configuration with
    | none =>
      rw [databaseHosts_of_local mysqlHosts hchecked] at hhost
      cases hhost
    | some checked =>
      have hfollows := h checked hchecked host hhost
      rw [← scopes_iff_follows (dialledHost_remoteDatabaseHost hchecked)] at hfollows
      exact hfollows scope ((openDatabase_eq_ok hchecked hscope).mp hopen).2

/-- A second host in the list is dialled without a check. -/
theorem second_host_unchecked :
    (⟨some ["Native", "Network"], [("Network", "host:db.example.com")]⟩ : Grants).openDatabase
      (fun _ _ => false) "postgres://app@db.example.com:5432,evil.test/orders".toList ⟨1, 1⟩ =
        .ok () ∧
    "evil.test".toList ∈ databaseHosts (fun _ => [])
      "postgres://app@db.example.com:5432,evil.test/orders".toList ∧
    networkScopeAllows hostIsWithin "host:db.example.com" "evil.test" none = false := by
  refine ⟨?_, by decide +kernel, by decide +kernel⟩
  rw [openDatabase_eq_ok (show remoteDatabaseHost _ = some "db.example.com".toList by decide +kernel)
    (lookup_cons_self ..)]
  exact ⟨by decide +kernel, by decide +kernel⟩

end Nivren
