import Codex.NetworkProxy.Constraints

/-!
# Decisions about hosts

A request is first judged by the lists alone: an explicit denial wins, local destinations
need an entry that names them, and a host outside of the allowlist may still be approved by
the decider.  An approved host is judged once more, with the approval in place of the
allowlist.

The state may be reloaded before each judgement, so the two can see different states; what
the state holds when it is read for the `n`-th time is a parameter, and so is the answer of
the resolver.  `Judged` says what an allowed host has passed.

`evaluateHostPolicy_sound` is about all requests and all reloads: an allowed host was judged in a
state that was read (`judged_of_hostBlocked`), and the resolver is asked only where the lists or
the decider let it (`mem_lookups_of_hostBlocked`).
-/

namespace Codex.NetworkProxy

open Text

/-! ## Hosts -/

/-- A normalised host. -/
structure Host where
  text : Str
  nonempty : text ≠ []

def Host.parse (input : Str) : Except Str Host :=
  if h : normalizeHost input = [] then .error "host is empty".toList
  else .ok ⟨normalizeHost input, h⟩

/-- The host without the scope of an IP literal. -/
def Host.unscoped (host : Host) : Str := (unscopedIpLiteral host.text).getD host.text

def isLoopbackHost (host : Host) : Bool :=
  if host.unscoped = "localhost".toList then true
  else match parseIpAddr host.unscoped with
    | some ip => ip.isLoopback
    | none => false

/-- A loopback name or a literal of an address that is no public destination. -/
def isLocalLiteral (host : Host) : Bool :=
  if isLoopbackHost host then true
  else match parseIpAddr host.unscoped with
    | some ip => isNonPublicIp ip
    | none => false

def domainsMatchHostOrUnscoped (set : DomainPatternSet) (host : Str) : Bool :=
  set.isMatch host || (unscopedIpLiteral host).any set.isMatch

def isExplicitLocalAllowlisted (allowedDomains : List Str) (host : Host) : Bool :=
  allowedDomains.any fun pattern =>
    let pattern := trim pattern
    if pattern = ['*'] ∨ (stripPrefix subdomainWildcard pattern).isSome ∨
        (stripPrefix apexWildcard pattern).isSome then false
    else if '*' ∈ pattern ∨ '?' ∈ pattern then false
    else normalizeHost pattern = host.text || (unscopedIpLiteral host.text).any (normalizeHost pattern = ·)

/-! ## One judgement -/

inductive HostBlockReason where
  | denied
  | notAllowed
  | notAllowedLocal
  deriving DecidableEq, Repr

def HostBlockReason.asStr : HostBlockReason → Str
  | denied => "denied".toList
  | notAllowed => "not_allowed".toList
  | notAllowedLocal => "not_allowed_local".toList

inductive HostAuthorization where
  | requireAllowlist
  | approved
  deriving DecidableEq, Repr

inductive HostBlockDecision where
  | allowed
  | blocked (reason : HostBlockReason)
  deriving DecidableEq, Repr

inductive LocalBindingPolicy where
  | defaultFalse
  | requireTrue
  deriving DecidableEq, Repr

def LocalBindingPolicy.resolve (policy : LocalBindingPolicy) (config : NetworkProxyConfig) : Bool :=
  config.allowLocalBinding.getD (config.enabled && policy = .requireTrue)

/-- How a lookup ends within its time limit. -/
inductive LookupOutcome where
  | resolved (addrs : List IpAddr)
  | failed
  | timedOut
  deriving DecidableEq

/-- The answer of the resolver, and a lookup made. -/
abbrev Resolver := Str → UInt16 → LookupOutcome

abbrev Lookup := Str × UInt16

def hostResolvesToNonPublicIp (resolver : Resolver) (host : Str) (port : UInt16) :
    Bool × List Lookup :=
  match parseIpAddr host with
  | some ip => (isNonPublicIp ip, [])
  | none =>
    match resolver host port with
    | .resolved addrs => (addrs.any isNonPublicIp, [(host, port)])
    | .failed => (true, [(host, port)])
    | .timedOut => (true, [(host, port)])

/-- Explicit restrictions of the controller stay even where the executor was launched with
local binding. -/
def localBindingAllowed (policy : LocalBindingPolicy) (config : NetworkProxyConfig)
    (allowLocalBinding : Option Bool) : Bool :=
  allowLocalBinding.getD (policy.resolve config) && config.allowLocalBinding ≠ some false

def isAuthorized (state : ConfigState) (host : Host) (authorization : HostAuthorization) : Bool :=
  authorization = .approved || domainsMatchHostOrUnscoped state.allowSet host.text

/-- The verdict of the lists alone. -/
def listVerdict (state : ConfigState) (host : Host) (authorization : HostAuthorization) :
    HostBlockDecision :=
  if isAuthorized state host authorization then .allowed else .blocked .notAllowed

variable (resolver : Resolver) (policy : LocalBindingPolicy)

/-- The judgement of a normalised host under one state, with the lookups made. -/
def judgeHost (state : ConfigState) (host : Host) (port : UInt16) (allowLocalBinding : Option Bool)
    (authorization : HostAuthorization) : HostBlockDecision × List Lookup :=
  if domainsMatchHostOrUnscoped state.denySet host.text then (.blocked .denied, [])
  else if localBindingAllowed policy state.config allowLocalBinding then
    (listVerdict state host authorization, [])
  else if isLocalLiteral host then
    if isExplicitLocalAllowlisted (state.config.allowedDomains.getD []) host then
      (listVerdict state host authorization, [])
    else (.blocked .notAllowedLocal, [])
  else if isAuthorized state host authorization then
    let (nonPublic, lookups) := hostResolvesToNonPublicIp resolver host.text port
    (if nonPublic then .blocked .notAllowedLocal else .allowed, lookups)
  else (.blocked .notAllowed, [])

open Host

/-- `read` is what the state holds once it has been reloaded, if that succeeded. -/
def hostBlockedWithLookup (read : Except Str ConfigState) (host : Str) (port : UInt16)
    (allowLocalBinding : Option Bool) (authorization : HostAuthorization) :
    Except Str HostBlockDecision × List Lookup :=
  match read with
  | .error err => (.error err, [])
  | .ok state =>
    match Host.parse host with
    | .error _ => (.ok (.blocked .notAllowed), [])
    | .ok host =>
      let (decision, lookups) :=
        judgeHost resolver policy state host port allowLocalBinding authorization
      (.ok decision, lookups)

/-! ## The decision -/

inductive NetworkProtocol where
  | http
  | httpsConnect
  | socks5Tcp
  | socks5Udp
  deriving DecidableEq, Repr

structure NetworkPolicyRequest where
  protocol : NetworkProtocol
  host : Str
  port : UInt16
  environmentId : Option Str
  clientAddr : Option Str
  method : Option Str
  command : Option Str
  execPolicyHint : Option Str
  executionId : Option Str

inductive NetworkPolicyDecision where
  | deny
  | ask
  deriving DecidableEq, Repr

inductive NetworkDecisionSource where
  | baselinePolicy
  | modeGuard
  | proxyState
  | decider
  deriving DecidableEq, Repr

inductive NetworkDecision where
  | allow
  | deny (reason : Str) (source : NetworkDecisionSource) (decision : NetworkPolicyDecision)
  deriving DecidableEq, Repr

def NetworkDecision.denyWithSource (reason : Str) (source : NetworkDecisionSource) :
    NetworkDecision :=
  .deny (if reason = [] then "policy_denied".toList else reason) source .deny

def mapDeciderDecision : NetworkDecision → NetworkDecision
  | .allow => .allow
  | .deny reason _ decision => .deny reason .decider decision

abbrev NetworkPolicyDecider := NetworkPolicyRequest → NetworkDecision

/-- What the proxy decides from.  `reads n` is the outcome of reloading and reading the state
for the `n`-th time. -/
structure NetworkProxyState where
  localBindingPolicy : LocalBindingPolicy
  reads : ℕ → Except Str ConfigState
  environmentId : Option Str
  executionId : Option Str

def NetworkProxyState.attribute (state : NetworkProxyState) (request : NetworkPolicyRequest) :
    NetworkPolicyRequest :=
  { request with
    environmentId := request.environmentId <|> state.environmentId
    executionId := state.executionId }

/-- The `n`-th judgement of a request. -/
def NetworkProxyState.hostBlocked (state : NetworkProxyState) (resolver : Resolver) (n : ℕ)
    (request : NetworkPolicyRequest) (authorization : HostAuthorization) :
    Except Str HostBlockDecision × List Lookup :=
  hostBlockedWithLookup resolver state.localBindingPolicy (state.reads n) request.host request.port
    none authorization

/-- An approval is overruled by a denial and by the rules for local destinations. -/
def decideApproved (decision : NetworkDecision) :
    Except Str HostBlockDecision → Except Str NetworkDecision
  | .error err => .error err
  | .ok (.blocked reason) => .ok (.denyWithSource reason.asStr .baselinePolicy)
  | .ok .allowed => .ok decision

/-- Judges the request by the lists, asks the decider where the host is just not allowed, and judges
an approved host again. -/
def evaluateHostPolicy (state : NetworkProxyState) (decider : Option NetworkPolicyDecider)
    (request : NetworkPolicyRequest) : Except Str NetworkDecision × List Lookup :=
  let (judged, lookups) := state.hostBlocked resolver 0 request .requireAllowlist
  match judged with
  | .error err => (.error err, lookups)
  | .ok .allowed => (.ok .allow, lookups)
  | .ok (.blocked .notAllowed) =>
    match decider with
    | none =>
      (.ok (.denyWithSource HostBlockReason.notAllowed.asStr .baselinePolicy), lookups)
    | some decide =>
      let decision := mapDeciderDecision (decide (state.attribute request))
      if decision = .allow then
        let (again, more) := state.hostBlocked resolver 1 request .approved
        (decideApproved decision again, lookups ++ more)
      else (.ok decision, lookups)
  | .ok (.blocked reason) => (.ok (.denyWithSource reason.asStr .baselinePolicy), lookups)

/-! ## What an allowed host has passed -/

section Judged

variable {resolver : Resolver} {policy : LocalBindingPolicy} {state : ConfigState} {host : Host}
  {port : UInt16} {authorization : HostAuthorization}

/-- No denied pattern matches the host or its literal without the scope. -/
def NotDenied (state : ConfigState) (host : Host) : Prop :=
  state.denySet.isMatch host.text = false ∧
    ∀ ip, unscopedIpLiteral host.text = some ip → state.denySet.isMatch ip = false

/-- An allowed domain without wildcards is the host or its literal without the scope. -/
def NamedByAllowlist (state : ConfigState) (host : Host) : Prop :=
  ∃ pattern ∈ state.config.allowedDomains.getD [], '*' ∉ pattern ∧ '?' ∉ pattern ∧
    (normalizeHost pattern = host.text ∨ unscopedIpLiteral host.text = some (normalizeHost pattern))

def PublicLiteral (host : Host) : Prop :=
  ∃ ip, parseIpAddr host.text = some ip ∧ isNonPublicIp ip = false

/-- The host was looked up, successfully, and has public addresses only. -/
def ResolvedPublic (resolver : Resolver) (lookups : List Lookup) (host : Host) (port : UInt16) :
    Prop :=
  (host.text, port) ∈ lookups ∧
    ∃ addrs, resolver host.text port = .resolved addrs ∧ ∀ ip ∈ addrs, isNonPublicIp ip = false

/-- What holds of a host that a judgement under this state allows. -/
structure Judged (resolver : Resolver) (policy : LocalBindingPolicy) (state : ConfigState)
    (lookups : List Lookup) (host : Host) (port : UInt16) : Prop where
  notDenied : NotDenied state host
  notLocal : localBindingAllowed policy state.config none = false →
    (isLocalLiteral host = false ∧
      (PublicLiteral host ∨ ResolvedPublic resolver lookups host port)) ∨
    NamedByAllowlist state host

theorem notDenied_of_not_match (h : domainsMatchHostOrUnscoped state.denySet host.text = false) :
    NotDenied state host := by
  simp only [domainsMatchHostOrUnscoped, Bool.or_eq_false_iff] at h
  refine ⟨h.1, fun ip hip => ?_⟩
  simpa [hip] using h.2

theorem namedByAllowlist_of_explicit
    (h : isExplicitLocalAllowlisted (state.config.allowedDomains.getD []) host = true) :
    NamedByAllowlist state host := by
  obtain ⟨pattern, hpattern, hnames⟩ := List.any_eq_true.mp h
  dsimp only at hnames
  split_ifs at hnames with hwildcard hstars
  have hplain : '*' ∉ pattern ∧ '?' ∉ pattern := by
    constructor
    · exact fun hmem => hstars (.inl (mem_trim hmem (by decide)))
    · exact fun hmem => hstars (.inr (mem_trim hmem (by decide)))
  have hnormalize : normalizeHost (trim pattern) = normalizeHost pattern := by
    simp only [normalizeHost, trim_trim]
  refine ⟨pattern, hpattern, hplain.1, hplain.2, ?_⟩
  rw [hnormalize] at hnames
  simp only [Bool.or_eq_true, decide_eq_true_eq, Option.any_eq_true] at hnames
  rcases hnames with heq | ⟨ip, hip, heq⟩
  · exact .inl heq
  · exact .inr (hip.trans (congrArg some heq.symm))

theorem hostResolves_eq_false (h : (hostResolvesToNonPublicIp resolver host.text port).1 = false) :
    PublicLiteral host ∨
      ResolvedPublic resolver (hostResolvesToNonPublicIp resolver host.text port).2 host port := by
  unfold hostResolvesToNonPublicIp at h ⊢
  cases hip : parseIpAddr host.text with
  | some ip =>
    simp only [hip] at h
    exact .inl ⟨ip, hip, h⟩
  | none =>
    simp only [hip] at h
    cases hanswer : resolver host.text port with
    | resolved addrs =>
      simp only [hanswer] at h ⊢
      exact .inr ⟨by simp, addrs, hanswer, by simpa using h⟩
    | failed | timedOut => simp [hanswer] at h

theorem judged_of_allowed
    (h : (judgeHost resolver policy state host port none authorization).1 = .allowed) :
    Judged resolver policy state
      (judgeHost resolver policy state host port none authorization).2 host port := by
  unfold judgeHost at h ⊢
  split_ifs at h ⊢ with hdeny hbinding hlocal hexplicit hauthorized
  · exact ⟨notDenied_of_not_match (by simpa using hdeny), fun hnot => by simp [hnot] at hbinding⟩
  · exact ⟨notDenied_of_not_match (by simpa using hdeny),
      fun _ => .inr (namedByAllowlist_of_explicit hexplicit)⟩
  · dsimp only at h ⊢
    split_ifs at h with hpublic
    refine ⟨notDenied_of_not_match (by simpa using hdeny), fun _ => .inl ⟨by simpa using hlocal, ?_⟩⟩
    exact hostResolves_eq_false (by simpa using hpublic)

/-- A host is blocked as denied by the deny patterns only. -/
theorem judgeHost_denied_iff {allowLocalBinding : Option Bool} :
    (judgeHost resolver policy state host port allowLocalBinding authorization).1 =
        .blocked .denied ↔
      domainsMatchHostOrUnscoped state.denySet host.text = true := by
  have hverdict : listVerdict state host authorization ≠ .blocked .denied := by
    unfold listVerdict
    split_ifs <;> simp
  unfold judgeHost
  split_ifs with hdeny hbinding hlocal hexplicit hauthorized
  · simp [hdeny]
  · simp [hdeny, hverdict]
  · simp [hdeny, hverdict]
  · simp [hdeny]
  · dsimp only
    split_ifs <;> simp [hdeny]
  · simp [hdeny]

theorem Judged.mono {lookups more : List Lookup} (h : Judged resolver policy state lookups host port)
    (hsubset : ∀ lookup ∈ lookups, lookup ∈ more) : Judged resolver policy state more host port := by
  refine ⟨h.notDenied, fun hbinding => (h.notLocal hbinding).imp_left ?_⟩
  rintro ⟨hlocal, hpublic⟩
  exact ⟨hlocal, hpublic.imp_right fun hresolved => ⟨hsubset _ hresolved.1, hresolved.2⟩⟩

end Judged

/-! ## Whole decisions -/

variable {resolver : Resolver} {state : NetworkProxyState} {decider : Option NetworkPolicyDecider}
  {request : NetworkPolicyRequest} {n : ℕ} {authorization : HostAuthorization}

theorem judged_of_hostBlocked
    (h : (state.hostBlocked resolver n request authorization).1 = .ok .allowed) :
    ∃ host seen, parse request.host = .ok host ∧ state.reads n = .ok seen ∧
      Judged resolver state.localBindingPolicy seen
        (state.hostBlocked resolver n request authorization).2 host request.port := by
  unfold NetworkProxyState.hostBlocked hostBlockedWithLookup at h ⊢
  cases hread : state.reads n with
  | error err => simp [hread] at h
  | ok seen =>
    simp only [hread] at h ⊢
    cases hhost : parse request.host with
    | error err => simp [hhost] at h
    | ok host =>
      simp only [hhost, Except.ok.injEq] at h ⊢
      exact ⟨host, seen, rfl, rfl, judged_of_allowed h⟩

/-- A host is looked up only where the allowlist or an approval admits it. -/
theorem mem_lookups_of_hostBlocked {lookup : Lookup}
    (h : lookup ∈ (state.hostBlocked resolver n request authorization).2) :
    ∃ host seen, parse request.host = .ok host ∧ state.reads n = .ok seen ∧
      lookup = (host.text, request.port) ∧ isAuthorized seen host authorization = true := by
  unfold NetworkProxyState.hostBlocked hostBlockedWithLookup at h
  cases hread : state.reads n with
  | error err => simp [hread] at h
  | ok seen =>
    simp only [hread] at h
    cases hhost : parse request.host with
    | error err => simp [hhost] at h
    | ok host =>
      simp only [hhost] at h
      unfold judgeHost at h
      split_ifs at h with hdeny hbinding hlocal hexplicit hauthorized
      all_goals try simp at h
      refine ⟨host, seen, rfl, rfl, ?_, hauthorized⟩
      unfold hostResolvesToNonPublicIp at h
      split at h
      · simp at h
      · split at h <;> simpa using h

theorem mapDeciderDecision_eq_allow {decision : NetworkDecision} :
    mapDeciderDecision decision = .allow ↔ decision = .allow := by
  cases decision <;> simp [mapDeciderDecision]

/-- A decision comes from the first judgement or, once the decider has approved the request, from
the second one. -/
theorem evaluateHostPolicy_cases :
    ((evaluateHostPolicy resolver state decider request).2 =
        (state.hostBlocked resolver 0 request .requireAllowlist).2 ∧
      ((evaluateHostPolicy resolver state decider request).1 = .ok .allow →
        (state.hostBlocked resolver 0 request .requireAllowlist).1 = .ok .allowed)) ∨
    ((∃ decide, decider = some decide ∧ decide (state.attribute request) = .allow) ∧
      (evaluateHostPolicy resolver state decider request).2 =
        (state.hostBlocked resolver 0 request .requireAllowlist).2 ++
          (state.hostBlocked resolver 1 request .approved).2 ∧
      ((evaluateHostPolicy resolver state decider request).1 = .ok .allow →
        (state.hostBlocked resolver 1 request .approved).1 = .ok .allowed)) := by
  unfold evaluateHostPolicy
  generalize state.hostBlocked resolver 0 request .requireAllowlist = first
  generalize state.hostBlocked resolver 1 request .approved = second
  obtain ⟨judged, lookups⟩ := first
  have hdenied : ∀ (reason : HostBlockReason) {goal : Prop},
      Except.ok (NetworkDecision.denyWithSource reason.asStr .baselinePolicy) =
        (.ok .allow : Except Str NetworkDecision) → goal :=
    fun reason _ heq => by cases heq
  cases judged with
  | error err => exact .inl ⟨rfl, by simp⟩
  | ok decision =>
    cases decision with
    | allowed => exact .inl ⟨rfl, fun _ => rfl⟩
    | blocked reason =>
      cases reason with
      | denied => exact .inl ⟨rfl, hdenied .denied⟩
      | notAllowedLocal => exact .inl ⟨rfl, hdenied .notAllowedLocal⟩
      | notAllowed =>
        cases decider with
        | none => exact .inl ⟨rfl, hdenied .notAllowed⟩
        | some decide =>
          dsimp only
          split_ifs with happroved
          · refine .inr ⟨⟨decide, rfl, mapDeciderDecision_eq_allow.mp happroved⟩, rfl, ?_⟩
            obtain ⟨again, more⟩ := second
            cases again with
            | error err => simp [decideApproved]
            | ok again =>
              cases again with
              | allowed => exact fun _ => rfl
              | blocked reason => exact hdenied reason
          · exact .inl ⟨rfl, fun hallow => absurd (Except.ok.inj hallow) happroved⟩

/-- A request is allowed only where no denied pattern matches its host and, without local
binding, the host is a public destination or named by the allowlist; and a host is looked up
only where it is on the allowlist or the decider has approved the request. -/
theorem evaluateHostPolicy_sound (resolver : Resolver) (state : NetworkProxyState)
    (decider : Option NetworkPolicyDecider) (request : NetworkPolicyRequest) :
    ((evaluateHostPolicy resolver state decider request).1 = .ok .allow →
      ∃ host n seen, Host.parse request.host = .ok host ∧ n < 2 ∧ state.reads n = .ok seen ∧
        Judged resolver state.localBindingPolicy seen
          (evaluateHostPolicy resolver state decider request).2 host request.port) ∧
    ∀ lookup ∈ (evaluateHostPolicy resolver state decider request).2,
      ∃ host, Host.parse request.host = .ok host ∧ lookup = (host.text, request.port) ∧
        ((∃ seen, state.reads 0 = .ok seen ∧
            domainsMatchHostOrUnscoped seen.allowSet host.text = true) ∨
          ∃ decide, decider = some decide ∧ decide (state.attribute request) = .allow) := by
  have hfirst : ∀ lookup ∈ (state.hostBlocked resolver 0 request .requireAllowlist).2,
      ∃ host, parse request.host = .ok host ∧ lookup = (host.text, request.port) ∧
        ∃ seen, state.reads 0 = .ok seen ∧
          domainsMatchHostOrUnscoped seen.allowSet host.text = true := by
    intro lookup hlookup
    obtain ⟨host, seen, hhost, hseen, heq, hauthorized⟩ := mem_lookups_of_hostBlocked hlookup
    exact ⟨host, hhost, heq, seen, hseen, by simpa [isAuthorized] using hauthorized⟩
  obtain ⟨hlookups, hallowed⟩ | ⟨happroved, hlookups, hallowed⟩ := evaluateHostPolicy_cases
  · rw [hlookups]
    constructor
    · intro hallow
      obtain ⟨host, seen, hhost, hseen, hjudged⟩ := judged_of_hostBlocked (hallowed hallow)
      exact ⟨host, 0, seen, hhost, by omega, hseen, hjudged⟩
    · intro lookup hlookup
      obtain ⟨host, hhost, heq, hlisted⟩ := hfirst lookup hlookup
      exact ⟨host, hhost, heq, .inl hlisted⟩
  · rw [hlookups]
    constructor
    · intro hallow
      obtain ⟨host, seen, hhost, hseen, hjudged⟩ := judged_of_hostBlocked (hallowed hallow)
      exact ⟨host, 1, seen, hhost, by omega, hseen,
        hjudged.mono fun _ hmem => List.mem_append_right _ hmem⟩
    · intro lookup hlookup
      rcases List.mem_append.mp hlookup with hlookup | hlookup
      · obtain ⟨host, hhost, heq, hlisted⟩ := hfirst lookup hlookup
        exact ⟨host, hhost, heq, .inl hlisted⟩
      · obtain ⟨host, -, hhost, -, heq, -⟩ := mem_lookups_of_hostBlocked hlookup
        exact ⟨host, hhost, heq, .inr happroved⟩

/-! ## A decision -/

/-- A state that allows `example.com`. -/
def exampleState : ConfigState where
  executorOs := .linux
  config := { NetworkProxyConfig.default with
    domains := some ⟨[⟨"example.com".toList, .allow⟩]⟩ }
  brokerageCreatedDefaultAllowlist := false
  allowSet := ⟨[Bytes.asBytes "example.com".toList]⟩
  denySet := ⟨[]⟩
  constraints := .default
  allowSet_eq := by decide
  denySet_eq := by decide

def exampleRequest : NetworkPolicyRequest :=
  ⟨.http, "Example.COM:443".toList, 443, none, none, none, none, none, none⟩

def examplePublic : Resolver := fun _ _ => .resolved [.v4 ⟨93, 184, 216, 34⟩]

def exampleProxy : NetworkProxyState := ⟨.defaultFalse, fun _ => .ok exampleState, none, none⟩

theorem evaluateHostPolicy_sound_example :
    (evaluateHostPolicy examplePublic exampleProxy none exampleRequest).1 = .ok .allow ∧
    ∃ host n seen, Host.parse exampleRequest.host = .ok host ∧ n < 2 ∧
      exampleProxy.reads n = .ok seen ∧
      Judged examplePublic exampleProxy.localBindingPolicy seen
        (evaluateHostPolicy examplePublic exampleProxy none exampleRequest).2 host
        exampleRequest.port := by
  have hallow :
      (evaluateHostPolicy examplePublic exampleProxy none exampleRequest).1 = .ok .allow := by
    decide
  exact ⟨hallow, (evaluateHostPolicy_sound examplePublic exampleProxy none exampleRequest).1 hallow⟩

end Codex.NetworkProxy
