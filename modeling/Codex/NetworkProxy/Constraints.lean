import Codex.NetworkProxy.Config

/-!
# Managed constraints

A managed configuration bounds what a user's configuration may allow.  The check reads each
allowed domain as an exact host, as the subdomains of a domain, or as a domain with its
subdomains (`DomainPattern`), after passing the domain through the parser of the `url` crate;
the matcher compiles the same text to wildcard patterns over bytes.  A text that the parser
rejects is read as the empty domain, so that all of them compare equal.

`allowlist_subset` says when the check bounds what the matcher matches: where an allowed
domain is listed, or both sides are read as what they are compiled to.
-/

namespace Codex.NetworkProxy

open Text Bytes

/-! ## Domain patterns, as the constraints read them -/

inductive DomainPattern where
  | apexAndSubdomains (domain : Str)
  | subdomainsOnly (domain : Str)
  | exact (domain : Str)
  deriving DecidableEq, Repr

def normalizeDomain (domain : Str) : Str := toLowercase (trimEndDots domain)

def domainEq (left right : Str) : Bool := normalizeDomain left = normalizeDomain right

def isSubdomainOrEqual (child parent : Str) : Bool :=
  normalizeDomain child = normalizeDomain parent ∨
    '.' :: normalizeDomain parent <:+ normalizeDomain child

def isStrictSubdomain (child parent : Str) : Bool :=
  normalizeDomain child ≠ normalizeDomain parent ∧
    '.' :: normalizeDomain parent <:+ normalizeDomain child

def parseDomainForConstraints [UrlHosts] (domain : Str) : Str :=
  let domain := trimEndDots (trim domain)
  if domain = [] then []
  else
    let host := if domain.head? = some '[' ∧ domain.getLast? = some ']' then
        (domain.drop 1).dropLast
      else domain
    if '*' ∈ host ∨ '?' ∈ host ∨ '%' ∈ host then domain
    else (UrlHosts.parseHost host).getD []

namespace DomainPattern

def parseForConstraints [UrlHosts] (input : Str) : DomainPattern :=
  let input := trim input
  if input = [] then exact []
  else
    match stripPrefix apexWildcard input with
    | some domain => apexAndSubdomains (parseDomainForConstraints domain)
    | none =>
      match stripPrefix subdomainWildcard input with
      | some domain => subdomainsOnly (parseDomainForConstraints domain)
      | none => exact (parseDomainForConstraints input)

/-- Whether a managed pattern admits the candidate. -/
def allows : DomainPattern → DomainPattern → Bool
  | exact domain, exact candidate => domainEq candidate domain
  | exact _, _ => false
  | subdomainsOnly domain, exact candidate => isStrictSubdomain candidate domain
  | subdomainsOnly domain, subdomainsOnly candidate => isSubdomainOrEqual candidate domain
  | subdomainsOnly domain, apexAndSubdomains candidate => isStrictSubdomain candidate domain
  | apexAndSubdomains domain, exact candidate => isSubdomainOrEqual candidate domain
  | apexAndSubdomains domain, subdomainsOnly candidate => isSubdomainOrEqual candidate domain
  | apexAndSubdomains domain, apexAndSubdomains candidate => isSubdomainOrEqual candidate domain

end DomainPattern

/-! ## The check -/

structure NetworkProxyConstraints where
  enabled : Option Bool
  mode : Option NetworkMode
  allowUpstreamProxy : Option Bool
  dangerouslyAllowNonLoopbackProxy : Option Bool
  dangerouslyAllowAllUnixSockets : Option Bool
  allowedDomains : Option (List Str)
  allowlistExpansionEnabled : Option Bool
  deniedDomains : Option (List Str)
  denylistExpansionEnabled : Option Bool
  allowUnixSockets : Option (List Str)
  allowLocalBinding : Option Bool
  deriving DecidableEq, Repr

protected def NetworkProxyConstraints.default : NetworkProxyConstraints :=
  ⟨none, none, none, none, none, none, none, none, none, none, none⟩

/-- A value in an error: a text, or a list in its debug form. -/
inductive ShownValue where
  | text (s : Str)
  | list (items : List Str)
  deriving DecidableEq, Repr

structure NetworkProxyConstraintError where
  fieldName : Str
  candidate : ShownValue
  allowed : ShownValue
  deriving DecidableEq, Repr

abbrev Checked := Except NetworkProxyConstraintError Unit

def NetworkMode.rank : NetworkMode → ℕ
  | limited => 0
  | full => 1

def NetworkMode.name : NetworkMode → String
  | limited => "Limited"
  | full => "Full"

/-- A switch that may be on only where the managed configuration leaves it. -/
def checkSwitch (fieldName : String) (candidate allowed : Bool) : Checked :=
  if candidate ∧ ¬ allowed then
    .error ⟨fieldName.toList, .text "true".toList,
      .text "false (disabled by managed config)".toList⟩
  else .ok ()

def checkMode (candidate : NetworkMode) : Option NetworkMode → Checked
  | some max =>
    if max.rank < candidate.rank then
      .error ⟨"network.mode".toList, .text candidate.name.toList,
        .text (max.name ++ " or more restrictive").toList⟩
    else .ok ()
  | none => .ok ()

def validateNonGlobalWildcardDomainPatterns (fieldName : String) (patterns : List Str) : Checked :=
  match patterns.find? isGlobalWildcardDomainPattern with
  | some pattern =>
    .error ⟨fieldName.toList, .text (trim pattern),
      .text "exact hosts or scoped wildcards like *.example.com or **.example.com".toList⟩
  | none => .ok ()

/-- The members of the first list, in lower case, that are in none of the others. -/
def missingFrom (required : List Str) (present : List (List Str)) : List Str :=
  (required.map toLowercase).dedup.filter fun entry =>
    present.all fun entries => entry ∉ entries.map toLowercase

def checkMissing (fieldName what : String) (missing : List Str) : Checked :=
  if missing = [] then .ok () else .error ⟨fieldName.toList, .text what.toList, .list missing⟩

/-- The same members, in lower case. -/
def sameMembers (left right : List Str) : Bool :=
  (left.map toLowercase).all (· ∈ right.map toLowercase) &&
    (right.map toLowercase).all (· ∈ left.map toLowercase)

/-- The allowlist has all managed entries, is the managed one, or lies within it, by whether it may
be expanded. -/
def checkAllowedDomains [UrlHosts] (candidate denied managed : List Str) : Option Bool → Checked
  | some true =>
    checkMissing "network.allowed_domains" "missing managed allowed_domains entries"
      (missingFrom managed [candidate, denied])
  | some false =>
    let expected := managed.filter fun entry => toLowercase entry ∉ denied.map toLowercase
    if sameMembers candidate expected then .ok ()
    else .error ⟨"network.allowed_domains".toList, .list candidate,
      .text "must match managed allowed_domains".toList⟩
  | none =>
    let invalid := candidate.filter fun entry => !managed.any fun managed =>
      (DomainPattern.parseForConstraints managed).allows (.parseForConstraints entry)
    if invalid = [] then .ok ()
    else .error ⟨"network.allowed_domains".toList, .list invalid,
      .text "subset of managed allowed_domains".toList⟩

def checkDeniedDomains (candidate managed : List Str) (expansion : Option Bool) : Checked :=
  if expansion = some false then
    if sameMembers candidate managed then .ok ()
    else .error ⟨"network.denied_domains".toList, .list candidate,
      .text "must match managed denied_domains".toList⟩
  else
    checkMissing "network.denied_domains" "missing managed denied_domains entries"
      (missingFrom managed [candidate])

def checkAllowUnixSockets (candidate : List Str) : Option (List Str) → Checked
  | some managed =>
    let invalid := candidate.filter fun entry => toLowercase entry ∉ managed.map toLowercase
    if invalid = [] then .ok ()
    else .error ⟨"network.allow_unix_sockets".toList, .list invalid,
      .text "subset of managed allow_unix_sockets".toList⟩
  | none => .ok ()

def invalidMitmHookConfiguration (message : Str) : NetworkProxyConstraintError :=
  ⟨"network.mitm_hooks".toList, .text message, .text "valid MITM hook configuration".toList⟩

def checkManagedAllowedDomains [UrlHosts] (config : NetworkProxyConfig)
    (constraints : NetworkProxyConstraints) : Checked :=
  match constraints.allowedDomains with
  | some managed => do
      validateNonGlobalWildcardDomainPatterns "network.allowed_domains" managed
      checkAllowedDomains (config.allowedDomains.getD []) (config.deniedDomains.getD []) managed
        constraints.allowlistExpansionEnabled
  | none => .ok ()

variable (config : NetworkProxyConfig)

variable (constraints : NetworkProxyConstraints)

def checkManagedDeniedDomains : Checked :=
  match constraints.deniedDomains with
  | some managed => do
      validateNonGlobalWildcardDomainPatterns "network.denied_domains" managed
      checkDeniedDomains (config.deniedDomains.getD []) managed constraints.denylistExpansionEnabled
  | none => .ok ()

/-- Checks a configuration against the managed constraints.  The check of the MITM hooks comes
before all others; its outcome is given. -/
def validatePolicyAgainstConstraints [UrlHosts] (config : NetworkProxyConfig)
    (constraints : NetworkProxyConstraints) (mitmHooks : Except Str Unit) : Checked := do
  mitmHooks.mapError invalidMitmHookConfiguration
  validateNonGlobalWildcardDomainPatterns "network.denied_domains" (config.deniedDomains.getD [])
  checkSwitch "network.enabled" config.enabled (constraints.enabled.getD true)
  checkMode config.mode constraints.mode
  checkSwitch "network.allow_upstream_proxy" config.allowUpstreamProxy
    (constraints.allowUpstreamProxy.getD true)
  checkSwitch "network.dangerously_allow_non_loopback_proxy" config.dangerouslyAllowNonLoopbackProxy
    (constraints.dangerouslyAllowNonLoopbackProxy.getD true)
  checkSwitch "network.dangerously_allow_all_unix_sockets"
    (config.dangerouslyAllowAllUnixSockets.getD false)
    (constraints.dangerouslyAllowAllUnixSockets.getD constraints.allowUnixSockets.isNone)
  checkSwitch "network.allow_local_binding" (config.allowLocalBinding.getD false)
    (constraints.allowLocalBinding.getD true)
  checkManagedAllowedDomains config constraints
  checkManagedDeniedDomains config constraints
  checkAllowUnixSockets config.allowUnixSockets constraints.allowUnixSockets

/-! ## Building the state -/

inductive Platform where
  | linux
  | macos
  | windows
  | unknown
  deriving DecidableEq, Repr

def Platform.pathConvention : Platform → Option PathConvention
  | linux | macos => some .posix
  | windows => some .windows
  | unknown => none

def isPathSeparator (c : Char) : Bool := c = '\\' || c = '/'

def windowsPathIsAbsolute (path : Str) : Bool :=
  match path with
  | drive :: ':' :: separator :: _ =>
    (isAsciiAlphabetic drive && isPathSeparator separator) || rooted path
  | _ => rooted path
where
  /-- A UNC, device or verbatim path. -/
  rooted : Str → Bool
    | first :: second :: rest =>
      isPathSeparator first && isPathSeparator second &&
        ("\\\\?\\".toList.isPrefixOf (first :: second :: rest) || device rest ||
          (match rest.splitOnP isPathSeparator with
            | server :: share :: _ => server ≠ [] && share ≠ []
            | _ => false))
    | _ => false
  device : Str → Bool
    | '.' :: separator :: _ => isPathSeparator separator
    | _ => false

def socketPathIsAbsolute (platform : Platform) (path : Str) : Bool :=
  path.head? = some '/' ||
    match platform.pathConvention with
    | some .posix => false
    | some .windows | none => windowsPathIsAbsolute path

inductive ConfigStateError where
  | unixSocketPath (index : ℕ) (executorOs : Platform) (path : Str)
  | message (text : Str)
  | constraint (error : NetworkProxyConstraintError)
  deriving DecidableEq, Repr

def validateUnixSocketAllowlistPaths (executorOs : Platform) : Except ConfigStateError Unit :=
  match config.allowUnixSockets.zipIdx.find? fun entry =>
      !socketPathIsAbsolute executorOs entry.1 || '\x00' ∈ entry.1 with
  | some (path, index) => .error (.unixSocketPath index executorOs path)
  | none => .ok ()

/-- A configuration with its domain lists compiled. -/
structure ConfigState where
  executorOs : Platform
  config : NetworkProxyConfig
  brokerageCreatedDefaultAllowlist : Bool
  allowSet : DomainPatternSet
  denySet : DomainPatternSet
  constraints : NetworkProxyConstraints
  allowSet_eq : compileAllowlist (config.allowedDomains.getD []) = .ok allowSet
  denySet_eq : compileDenylist (config.deniedDomains.getD []) = .ok denySet

/-- The configuration as credential brokerage leaves it, and whether it was given the default
allowlist. -/
def withBrokerage : NetworkProxyConfig × Bool :=
  let config := if constraints.enabled = some false then { config with credentialBroker := false }
    else config
  let created := config.credentialBroker && !config.enabled
  let defaultAllowlist := created && config.allowedDomains.isNone && constraints.allowedDomains.isNone
  let config := if created then { config with enabled := true } else config
  (if defaultAllowlist then config.setAllowedDomains ["*".toList] else config, defaultAllowlist)

def compileState (defaultAllowlist : Bool) (constraints : NetworkProxyConstraints)
    (executorOs : Platform) : Except ConfigStateError ConfigState :=
  match hdeny : compileDenylist (config.deniedDomains.getD []) with
  | .error message => .error (.message message)
  | .ok denySet =>
    match hallow : compileAllowlist (config.allowedDomains.getD []) with
    | .error message => .error (.message message)
    | .ok allowSet =>
      .ok ⟨executorOs, config, defaultAllowlist, allowSet, denySet, constraints, hallow, hdeny⟩

def checkMitmSettings : Except ConfigStateError Unit :=
  if config.credentialBroker ∧ ¬ config.mitm then
    .error (.message "network.credential_broker requires network.mitm = true".toList)
  else if config.mitmCa.isSome ∧ ¬ config.mitm then
    .error (.message "network.mitm_ca requires network.mitm = true".toList)
  else .ok ()

/-- Compiles a configuration.  The outcomes of compiling the MITM hooks and of setting up the
interception itself are given. -/
def buildConfigState (executorOs : Platform) (mitmHooks mitmState : Except Str Unit) :
    Except ConfigStateError ConfigState := do
  let brokered := withBrokerage config constraints
  validateUnixSocketAllowlistPaths brokered.1 executorOs
  checkMitmSettings brokered.1
  (validateNonGlobalWildcardDomainPatterns "network.denied_domains"
    (brokered.1.deniedDomains.getD [])).mapError .constraint
  let state ← compileState brokered.1 brokered.2 constraints executorOs
  mitmHooks.mapError .message
  (if brokered.1.mitm then mitmState else .ok ()).mapError .message
  return state

end Codex.NetworkProxy
