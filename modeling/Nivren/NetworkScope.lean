import Nivren.ScopeTable

/-! Network scopes.

A scope is a list of clauses that all have to hold: a host clause lists hosts, a method clause lists
request methods. An entry `*.d` stands for the hosts below `d`. The host of a URL is the one that the
request is sent to.
-/

namespace Nivren

open List

structure HttpUrl where
  tls : Bool
  host : List Char
  port : ℕ
  target : List Char
deriving DecidableEq

def parseUrlPort (value : List Char) : Except String ℕ :=
  match (Text.decimal value).filter (· < 2 ^ 16) with
  | some port => .ok port
  | none => .error "URL port must be from 0 through 65535"

/-- The host and the port of `parse_http_url`. -/
def parseAuthority (defaultPort : ℕ) (authority : List Char) : Except String (List Char × ℕ) :=
  match authority.dropPrefix? ['['] with
  | some bracketed =>
    match Text.splitOnce ']' bracketed with
    | none => .error "unterminated IPv6 URL host"
    | some (host, []) => .ok (host, defaultPort)
    | some (host, ':' :: port) => do return (host, ← parseUrlPort port)
    | some _ => .error "invalid IPv6 URL authority"
  | none =>
    match Text.rsplitOnce ':' authority with
    | none => .ok (authority, defaultPort)
    | some (host, port) =>
      if ':' ∈ host then .error "IPv6 URL hosts must use brackets"
      else do return (host, ← parseUrlPort port)

/-- `parse_http_url` behind the scheme. -/
def parseUrlRest (tls : Bool) (defaultPort : ℕ) (rest : List Char) : Except String HttpUrl :=
  if rest.any fun c => ['\r', '\n', '#', '@'].contains c then
    .error "URL contains a forbidden authority or control character"
  else
    let (authority, target) :=
      match Text.splitOnce '/' rest with
      | some (authority, path) => (authority, '/' :: path)
      | none => (rest, ['/'])
    if authority = [] then .error "URL host cannot be empty"
    else do
      let (host, port) ← parseAuthority defaultPort authority
      if host = [] ∨ host.any Text.isWhiteSpace then .error "invalid URL host"
      else return ⟨tls, host, port, target⟩

def parseHttpUrl (value : List Char) : Except String HttpUrl :=
  match value.dropPrefix? "https://".toList with
  | some rest => parseUrlRest true 443 rest
  | none =>
    match value.dropPrefix? "http://".toList with
    | some rest => parseUrlRest false 80 rest
    | none => .error "URL must begin with http:// or https://"

def plainName (host : List Char) : List Char := (host.rdropWhile (· == '.')).map Char.toLower

def entryAdmits (entry name : List Char) : Bool :=
  match (plainName entry).dropPrefix? ['*', '.'] with
  | some suffix => name ≠ suffix ∧ '.' :: suffix <:+ name
  | none => name = plainName entry

def hostIsWithin (target scope : String) : Bool :=
  if "http://".toList <+: target.toList ∨ "https://".toList <+: target.toList then
    match parseHttpUrl target.toList with
    | .ok url => entryAdmits scope.toList (plainName url.host)
    | .error _ => false
  else entryAdmits scope.toList (plainName target.toList)

/-- The host that a request to a target dials: the one of a URL, and else the target itself. -/
def dialledHost (target : String) : Option (List Char) :=
  if "http://".toList <+: target.toList ∨ "https://".toList <+: target.toList then
    (parseHttpUrl target.toList).toOption.map HttpUrl.host
  else some target.toList

/-- A name is the one of an entry, or for an entry `*.d` a name with a label in front of `d`. -/
def NamedBy (entry name : List Char) : Prop :=
  name = plainName entry ∨ ∃ suffix labels, plainName entry = '*' :: '.' :: suffix ∧
    name = labels ++ '.' :: suffix ∧ ∃ c ∈ labels, c ≠ '.'

/-- The dialled host and the method are among those of the scope: every host clause names the host,
and every method clause the method. -/
structure WithinScope (scope target : String) (method : Option String) : Prop where
  host : ∀ choices, "host:" ++ choices ∈ splitAt ';' scope →
    ∃ entry ∈ splitAt ',' choices, ∃ host, dialledHost target = some host ∧
      NamedBy entry.toList (plainName host)
  method : ∀ choices, "method:" ++ choices ∈ splitAt ';' scope →
    ∃ choice ∈ splitAt ',' choices, ∃ sent, method = some sent ∧
      choice.map Char.toLower = sent.map Char.toLower

section Hosts

variable {entry target : String}

theorem hostIsWithin_iff : hostIsWithin target entry = true ↔
      ∃ host, dialledHost target = some host ∧ entryAdmits entry.toList (plainName host) = true := by
  unfold hostIsWithin dialledHost
  split
  · cases parseHttpUrl target.toList with
    | error e => simp [Except.toOption]
    | ok url => simp [Except.toOption]
  · simp

variable {name : List Char}

theorem entryAdmits_iff {entry : List Char} : entryAdmits entry name = true ↔
      (∃ suffix, plainName entry = '*' :: '.' :: suffix ∧ '.' :: suffix <:+ name) ∨
        (∀ suffix, plainName entry ≠ '*' :: '.' :: suffix) ∧ name = plainName entry := by
  unfold entryAdmits
  split
  next suffix hsu =>
    have hen : plainName entry = '*' :: '.' :: suffix := Text.dropPrefix?_eq_some.mp hsu
    simp only [ne_eq, hen, Bool.decide_and, Bool.and_eq_true, decide_eq_true_eq]
    constructor
    · rintro ⟨-, h⟩
      exact .inl ⟨suffix, rfl, h⟩
    · rintro (⟨other, hot, h⟩ | ⟨h, -⟩)
      · obtain rfl : suffix = other := by simpa using hot
        refine ⟨?_, h⟩
        rintro rfl
        exact absurd h.length_le (by simp)
      · exact absurd rfl (h suffix)
  next hn =>
    have hot : ∀ suffix, plainName entry ≠ '*' :: '.' :: suffix := by
      intro suffix hen
      rw [Text.dropPrefix?_eq_some.mpr hen] at hn
      cases hn
    simp only [decide_eq_true_eq]
    constructor
    · intro h
      exact .inr ⟨hot, h⟩
    · rintro (⟨suffix, hen, -⟩ | ⟨-, h⟩)
      · exact absurd hen (hot suffix)
      · exact h

variable {host : List Char}

theorem notMem_plainName {c : Char} (h : c ∉ host) (hc : c.isLower = false) :
    c ∉ plainName host := by
  intro hmem
  obtain ⟨other, hot, heq⟩ := mem_map.mp hmem
  obtain rfl := Text.eq_of_toLower_eq heq hc
  exact h (Text.mem_of_mem_rdropWhile hot)

theorem plainName_eq_self (hl : ∀ c ∈ name, c.toLower = c)
    (hla : name.getLast? ≠ some '.') : plainName name = name := by
  have htr : name.rdropWhile (· == '.') = name := by
    rw [rdropWhile_eq_self_iff]
    intro hne hdot
    exact hla (by rw [List.getLast?_eq_getLast_of_ne_nil hne, eq_of_beq hdot])
  calc plainName name = name.map Char.toLower := by rw [plainName, htr]
    _ = name.map id := map_congr_left hl
    _ = name := map_id name

theorem getLast?_plainName (host : List Char) : (plainName host).getLast? ≠ some '.' := by
  intro hl
  rw [plainName, List.getLast?_map, Option.map_eq_some_iff] at hl
  obtain ⟨c, hc, hlo⟩ := hl
  obtain rfl : c = '.' := Text.eq_of_toLower_eq hlo (by decide)
  have hne : host.rdropWhile (· == '.') ≠ [] := by
    intro hnil
    simp [hnil] at hc
  have hnot := rdropWhile_last_not (· == '.') host hne
  rw [List.getLast?_eq_getLast_of_ne_nil hne] at hc
  exact hnot (by rw [Option.some.inj hc]; rfl)

theorem toLower_of_mem_plainName {c : Char} (h : c ∈ plainName host) : c.toLower = c := by
  obtain ⟨other, -, rfl⟩ := mem_map.mp h
  exact Text.toLower_toLower other

theorem host_ne_method (a b : String) : "host:" ++ a ≠ "method:" ++ b := by
  have hh : "host:".toList = ['h', 'o', 's', 't', ':'] := by decide +kernel
  have hm : "method:".toList = ['m', 'e', 't', 'h', 'o', 'd', ':'] := by decide +kernel
  intro h
  have hl := congrArg String.toList h
  rw [String.toList_append, String.toList_append, hh, hm] at hl
  cases hl

theorem notMem_of_entry {scope choices : String}
    (hc : "host:" ++ choices ∈ splitAt ';' scope) (hen : entry ∈ splitAt ',' choices) :
    ',' ∉ entry.toList ∧ ';' ∉ entry.toList := by
  have hp := Text.mem_splitOn (mem_splitAt.mp hen)
  refine ⟨hp.1, fun hmem => (Text.mem_splitOn (mem_splitAt.mp hc)).1 ?_⟩
  rw [String.toList_append]
  exact mem_append_right _ (hp.2 hmem)

def entryScope (entry : String) : String := "host:" ++ entry

theorem splitAt_entryScope (h : ';' ∉ entry.toList) :
    splitAt ';' (entryScope entry) = [entryScope entry] := by
  have hc : ';' ∉ (entryScope entry).toList := by
    rw [entryScope, String.toList_append]
    intro hmem
    rcases mem_append.mp hmem with hmem | hmem
    · exact absurd hmem (by decide +kernel)
    · exact h hmem
  rw [splitAt, splitOn_eq_singleton hc, map_singleton, String.ofList_toList]

theorem splitAt_comma (h : ',' ∉ entry.toList) : splitAt ',' entry = [entry] := by
  rw [splitAt, splitOn_eq_singleton h, map_singleton, String.ofList_toList]

theorem networkScopeAllows_entryScope {method : Option String}
    (hco : ',' ∉ entry.toList) (hse : ';' ∉ entry.toList) :
    networkScopeAllows hostIsWithin (entryScope entry) target method = true ↔
      hostIsWithin target entry = true := by
  rw [networkScopeAllows_iff, splitAt_entryScope hse, forall_mem_singleton]
  constructor
  · rintro (⟨choices, hc, choice, hch, hw⟩ | ⟨choices, hc, -⟩)
    · obtain rfl : entry = choices := String.append_right_inj _ |>.mp hc
      rw [splitAt_comma hco, mem_singleton] at hch
      rwa [← hch]
    · exact absurd hc (host_ne_method _ _)
  · intro hw
    exact .inl ⟨entry, rfl, entry, by rw [splitAt_comma hco]; simp, hw⟩

def LeadingDot (name : List Char) : Prop := name.head? = some '.' ∧ ',' ∉ name ∧ ';' ∉ name

theorem plainName_wildcard {labels suffix : List Char}
    (hn : plainName host = labels ++ '.' :: suffix) :
    plainName ('*' :: '.' :: suffix) = '*' :: '.' :: suffix := by
  have hend := getLast?_plainName host
  have hne : suffix ≠ [] := by
    rintro rfl
    simp [hn] at hend
  apply plainName_eq_self
  · simp only [mem_cons, forall_eq_or_imp]
    refine ⟨by decide, by decide, fun c hc => @toLower_of_mem_plainName host c ?_⟩
    rw [hn]
    simp [hc]
  · obtain ⟨c, others, rfl⟩ := exists_cons_of_ne_nil hne
    rw [hn, List.getLast?_append_cons, List.getLast?_cons_cons] at hend
    rwa [List.getLast?_cons_cons, List.getLast?_cons_cons]

theorem exists_scope_of_leadingDot
    (hh : dialledHost target = some host) (hdot : LeadingDot (plainName host)) :
    ∃ scope, networkScopeAllows hostIsWithin scope target none = true ∧
      ¬ WithinScope scope target none := by
  obtain ⟨hf, hcm, hsm⟩ := hdot
  obtain ⟨rest, hna⟩ : ∃ rest, plainName host = [] ++ '.' :: rest := ⟨_, eq_cons_of_mem_head? hf⟩
  have hr : ∀ c ∈ rest, c ∈ plainName host := by
    intro c hc
    rw [hna]
    simp [hc]
  obtain ⟨entry, hen⟩ : ∃ entry : String, entry.toList = '*' :: '.' :: rest :=
    ⟨String.ofList ('*' :: '.' :: rest), String.toList_ofList⟩
  have hp := plainName_wildcard hna
  have hco : ',' ∉ entry.toList := by
    rw [hen]
    simpa using fun hc => hcm (hr _ hc)
  have hse : ';' ∉ entry.toList := by
    rw [hen]
    simpa using fun hc => hsm (hr _ hc)
  refine ⟨entryScope entry, ?_, fun hw => ?_⟩
  · rw [networkScopeAllows_entryScope hco hse, hostIsWithin_iff, hen]
    exact ⟨host, hh, entryAdmits_iff.mpr (.inl ⟨rest, hp, [], hna.symm⟩)⟩
  · obtain ⟨choice, hch, host', hho, hn⟩ :=
      hw.host entry (by
        rw [splitAt_entryScope hse]
        exact mem_singleton_self _)
    rw [splitAt_comma hco, mem_singleton] at hch
    obtain rfl : host = host' := Option.some.inj (hh.symm.trans hho)
    rw [hch, hen, NamedBy, hp] at hn
    rcases hn with hn | ⟨suffix, labels, hsu, hl, c, hc, -⟩
    · simp [hn] at hf
    · obtain rfl : rest = suffix := by simpa using hsu
      obtain rfl : [] = labels := append_cancel_right (hna.symm.trans hl)
      cases hc

theorem namedBy_of_entryAdmits {entry : List Char} (ha : entryAdmits entry name = true)
    (hco : ',' ∉ entry) (hse : ';' ∉ entry) (hdot : ¬ LeadingDot name) :
    NamedBy entry name := by
  rcases entryAdmits_iff.mp ha with ⟨suffix, het, labels, hl⟩ | ⟨-, hn⟩
  · by_cases hla : ∃ c ∈ labels, c ≠ '.'
    · exact .inr ⟨suffix, labels, het, hl.symm, hla⟩
    · have hd : ∀ c ∈ labels, c = '.' := by simpa using hla
      have hcl : ∀ c, c ∉ entry → c.isLower = false → c ≠ '.' → c ∉ name := by
        intro c hc hlo hne hmem
        have hen := notMem_plainName hc hlo
        rw [het] at hen
        rw [← hl, mem_append, mem_cons] at hmem
        rcases hmem with hmem | rfl | hmem
        · exact hne (hd c hmem)
        · exact hne rfl
        · exact hen (by simp [hmem])
      refine absurd ⟨?_, hcl ',' hco (by decide) (by decide),
        hcl ';' hse (by decide) (by decide)⟩ hdot
      rw [← hl]
      cases labels with
      | nil => rfl
      | cons c rest => simp [hd c]
  · exact .inl hn

end Hosts

/-- What a scope allows lies within it, whatever the scope, exactly for the targets whose name does
not begin with a dot. -/
theorem network_scope_confines_iff (target : String) :
    (∀ scope method, networkScopeAllows hostIsWithin scope target method = true →
      WithinScope scope target method) ↔
      ∀ host, dialledHost target = some host → ¬ LeadingDot (plainName host) := by
  constructor
  · intro hconfined host hhost hdot
    obtain ⟨scope, hallows, hnot⟩ := exists_scope_of_leadingDot hhost hdot
    exact hnot (hconfined scope none hallows)
  · intro hname scope method hallows
    rw [networkScopeAllows_iff] at hallows
    refine ⟨fun choices hclause => ?_, fun choices hclause => ?_⟩
    · rcases hallows _ hclause with ⟨others, heq, entry, hentry, hwithin⟩ | ⟨others, heq, -⟩
      · obtain rfl : choices = others := String.append_right_inj _ |>.mp heq
        obtain ⟨host, hhost, hadmits⟩ := hostIsWithin_iff.mp hwithin
        obtain ⟨hcomma, hsemicolon⟩ := notMem_of_entry hclause hentry
        exact ⟨entry, hentry, host, hhost,
          namedBy_of_entryAdmits hadmits hcomma hsemicolon (hname host hhost)⟩
      · exact absurd heq (host_ne_method _ _)
    · rcases hallows _ hclause with ⟨others, heq, -⟩ | ⟨others, heq, hsent⟩
      · exact absurd heq.symm (host_ne_method _ _)
      · obtain rfl : choices = others := String.append_right_inj _ |>.mp heq
        exact hsent

/-- A host with an empty first label passes for one below the domain. -/
theorem empty_label_allowed :
    networkScopeAllows hostIsWithin "host:*.example.com" "http://.example.com/" (some "GET") = true ∧
    dialledHost "http://.example.com/" = some ".example.com".toList ∧
    ¬ NamedBy "*.example.com".toList (plainName ".example.com".toList) := by
  refine ⟨by decide +kernel, by decide +kernel, ?_⟩
  rintro (h | ⟨suffix, labels, hentry, hname, c, hc, -⟩)
  · exact absurd h (by decide +kernel)
  · have hplain : plainName "*.example.com".toList = '*' :: '.' :: "example.com".toList := by
      decide +kernel
    have hlabels : plainName ".example.com".toList = [] ++ '.' :: "example.com".toList := by
      decide +kernel
    rw [hplain] at hentry
    obtain rfl : "example.com".toList = suffix := (cons.inj (cons.inj hentry).2).2
    obtain rfl : [] = labels := append_cancel_right (hlabels.symm.trans hname)
    cases hc

end Nivren
