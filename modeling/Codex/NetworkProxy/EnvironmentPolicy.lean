import Codex.Lib.Upsert
import Codex.NetworkProxy.HostPolicy
import Codex.NetworkProxy.PatternKey

/-!
# The policy of an execution environment

The owner of an environment brings a policy of their own, which is put over the controller's
configuration: the owner's domains replace the controller's, except for its denials, and
everything else is granted only where both sides grant it.

A denial is put in under its normalised host and takes the place of every entry with that
host.  The first application does this with the controller's denials only, the second one with
the owner's own as well, so that entries of the owner with the host of a denied one are lost
then; nothing else changes.

All of this is `applyTo_restricts`.  The domains after one application are `domainList_applyTo`,
those after two `applyTo_applyTo`; a lost entry is in `second_application_drops_entry`.
-/

namespace Codex.NetworkProxy

open Text SortedMap
open scoped List

structure EnvironmentNetworkPolicy where
  requiresProxy : Bool
  domains : Option NetworkDomainPermissions
  unixSockets : Option NetworkUnixSocketPermissions
  allowUpstreamProxy : Bool
  dangerouslyAllowAllUnixSockets : Bool
  allowLocalBinding : Option Bool
  managedAllowedDomainsOnly : Bool
  deriving DecidableEq

/-- Allowing all sockets cannot override a socket that is denied. -/
def permitsAllSockets (allowAll : Bool) (sockets : NetworkUnixSocketPermissions) : Bool :=
  allowAll && !sockets.entries.any fun entry => entry.2 = .deny

/-- The shared grants, and all denials of either side. -/
def effectiveSockets (inheritedPermitsAll ownerPermitsAll : Bool)
    (inherited owner : NetworkUnixSocketPermissions) : NetworkUnixSocketPermissions :=
  (owner.retain fun path permission =>
    permission = .deny || inheritedPermitsAll || inherited.get path = some .allow).extend
  (inherited.retain fun _ permission => ownerPermitsAll || permission = .deny)

/-- An explicit denial wins; an unresolved default is left to the executor. -/
def effectiveLocalBinding : Option Bool → Option Bool → Option Bool
  | some controller, some owner => some (controller && owner)
  | controller, owner => controller.or owner

def NetworkProxyConfig.inheritedAllowAll (config : NetworkProxyConfig) : Bool :=
  config.dangerouslyAllowAllUnixSockets.getD config.unixSockets.isNone

def NetworkProxyConfig.upsertDenials (config : NetworkProxyConfig) (denials : List Str) :
    NetworkProxyConfig :=
  denials.foldl (fun config domain => config.upsertDomainPermission domain .deny) config

/-- The owner's policy over the controller's configuration. -/
def EnvironmentNetworkPolicy.applyTo (policy : EnvironmentNetworkPolicy)
    (config : NetworkProxyConfig) : NetworkProxyConfig :=
  let inheritedDenials := config.deniedDomains.getD []
  let domains := ({ config with domains := policy.domains }.upsertDenials inheritedDenials).domains
  let inherited := config.unixSockets.getD .empty
  let owner := policy.unixSockets.getD .empty
  let inheritedPermitsAll := permitsAllSockets config.inheritedAllowAll inherited
  let ownerPermitsAll := permitsAllSockets policy.dangerouslyAllowAllUnixSockets owner
  let effective := effectiveSockets inheritedPermitsAll ownerPermitsAll inherited owner
  { config with
    domains
    unixSockets := if effective.isEmpty then none else some effective
    dangerouslyAllowAllUnixSockets := some (inheritedPermitsAll && ownerPermitsAll)
    allowUpstreamProxy := config.allowUpstreamProxy && policy.allowUpstreamProxy
    allowLocalBinding := effectiveLocalBinding config.allowLocalBinding policy.allowLocalBinding }

/-! ## Sockets -/

/-- One side grants the path: all of them and it denies none, or this one. -/
def Grants (allowAll : Bool) (sockets : NetworkUnixSocketPermissions) (path : Str) : Prop :=
  (allowAll = true ∧ ∀ other, sockets.get other ≠ some .deny) ∨ sockets.get path = some .allow

/-- The configuration lets the path through. -/
def NetworkProxyConfig.SocketGranted (config : NetworkProxyConfig) (path : Str) : Prop :=
  config.dangerouslyAllowAllUnixSockets = some true ∨
    (config.unixSockets.getD .empty).get path = some .allow

section Sockets

variable {allowAll inheritedPermitsAll ownerPermitsAll : Bool}
  {sockets inherited owner : NetworkUnixSocketPermissions} {path : Str}

theorem permitsAllSockets_iff : permitsAllSockets allowAll sockets = true ↔
    allowAll = true ∧ ∀ path, sockets.get path ≠ some .deny := by
  simp only [permitsAllSockets, Bool.and_eq_true, Bool.not_eq_true', List.any_eq_false,
    decide_eq_true_eq]
  refine and_congr_right fun _ => ⟨fun h path hpath => ?_, fun h entry hentry hdeny => ?_⟩
  · exact h _ (get_eq_some_iff.mp hpath) rfl
  · obtain ⟨path, permission⟩ := entry
    cases hdeny
    exact h path (get_eq_some_iff.mpr hentry)

theorem get_effectiveSockets :
    (effectiveSockets inheritedPermitsAll ownerPermitsAll inherited owner).get path =
      ((inherited.get path).filter fun permission => ownerPermitsAll || permission = .deny).or
      ((owner.get path).filter fun permission =>
        permission = .deny || inheritedPermitsAll || inherited.get path = some .allow) := by
  rw [effectiveSockets, get_extend, get_retain, get_retain]

/-- What is found under a path, one side permitting all of them only if it denies none. -/
theorem get_effectiveSockets_allow_iff
    (hinherited : inheritedPermitsAll = true → inherited.get path ≠ some .deny)
    (howner : ownerPermitsAll = true → owner.get path ≠ some .deny) :
    (effectiveSockets inheritedPermitsAll ownerPermitsAll inherited owner).get path = some .allow ↔
      (inheritedPermitsAll = true ∧ owner.get path = some .allow) ∨
      (inherited.get path = some .allow ∧ ownerPermitsAll = true) ∨
      (inherited.get path = some .allow ∧ owner.get path = some .allow) := by
  rw [get_effectiveSockets]
  generalize inherited.get path = i at *
  generalize owner.get path = o at *
  rcases i with _ | _ | _ <;> rcases o with _ | _ | _ <;> cases inheritedPermitsAll <;>
    cases ownerPermitsAll <;> simp_all

end Sockets

/-! ## Domains -/

/-- Entries are told apart by their normalised hosts. -/
def hostKey (entry : NetworkDomainPermissionEntry) : Str := normalizeHost entry.pattern

/-- The effective entries that deny their pattern. -/
def deniedEntries (entries : List NetworkDomainPermissionEntry) :
    List NetworkDomainPermissionEntry :=
  (entries.foldl addEffective []).filter fun entry => entry.permission = .deny

section Domains

open Keyed

variable {entries owner controller more : List NetworkDomainPermissionEntry}
  {entry : NetworkDomainPermissionEntry}

theorem mem_deniedEntries_iff : entry ∈ deniedEntries entries ↔
    entry ∈ entries ∧ entry.permission = .deny := by
  have heffective := effective_effectiveEntries ⟨entries⟩
  rw [deniedEntries, List.mem_filter, decide_eq_true_eq]
  refine and_congr_left fun hdeny => (heffective.mem_iff entry).trans ⟨And.left, fun hmem => ?_⟩
  exact ⟨hmem, fun other _ _ => by rw [hdeny]; cases other.permission <;> decide⟩

open NetworkProxyConfig

theorem deniedDomains_getD (config : NetworkProxyConfig) :
    config.deniedDomains.getD [] =
      (deniedEntries config.domainList).map NetworkDomainPermissionEntry.pattern := by
  unfold deniedDomains domainEntries
    NetworkProxyConfig.domainList deniedEntries
  cases config.domains with
  | none => rfl
  | some domains =>
    simp only [Option.map_some, NetworkDomainPermissions.effectiveEntries, Option.filter_some]
    split_ifs with hne
    · rfl
    · simpa using hne

theorem map_deny_deniedEntries (entries : List NetworkDomainPermissionEntry) :
    ((deniedEntries entries).map NetworkDomainPermissionEntry.pattern).map
      (fun domain => ⟨domain, .deny⟩) = deniedEntries entries := by
  rw [List.map_map]
  conv_rhs => rw [← List.map_id (deniedEntries entries)]
  refine List.map_congr_left fun entry hentry => ?_
  have hdeny := (mem_deniedEntries_iff.mp hentry).2
  cases entry
  cases hdeny
  rfl

/-- Denials of new patterns are effective as they are. -/
theorem deniedEntries_append (hdeny : ∀ entry ∈ more, entry.permission = .deny)
    (hnew : ∀ entry ∈ more, ∀ old ∈ entries, hostKey old ≠ hostKey entry)
    (hdistinct : more.Pairwise fun x y => hostKey x ≠ hostKey y) :
    deniedEntries (entries ++ more) = deniedEntries entries ++ more := by
  induction more using List.reverseRecOn with
  | nil => simp
  | append_singleton more last ih =>
    obtain ⟨hmore, -, hlast⟩ := List.pairwise_append.mp hdistinct
    have hfresh : ¬ ∃ known ∈ (entries ++ more).foldl addEffective [],
        known.pattern = last.pattern := by
      rintro ⟨known, hknown, hpattern⟩
      have hkey : hostKey known = hostKey last := congrArg normalizeHost hpattern
      have hmem := ((effective_effectiveEntries ⟨entries ++ more⟩).mem_iff known).mp hknown
      rcases List.mem_append.mp hmem.1 with hold | hold
      · exact hnew last (by simp) known hold hkey
      · exact hlast known hold last (by simp) hkey
    have hrest := ih (fun e he => hdeny e (by simp [he])) (fun e he => hnew e (by simp [he])) hmore
    unfold deniedEntries at hrest ⊢
    rw [← List.append_assoc, List.foldl_append, List.foldl_cons, List.foldl_nil, addEffective,
      if_neg hfresh, List.filter_append, hrest]
    simp [hdeny last (by simp)]

theorem domainList_upsertDenials (config : NetworkProxyConfig) (denials : List Str) :
    (config.upsertDenials denials).domainList =
      upsertAll hostKey config.domainList (denials.map fun domain => ⟨domain, .deny⟩) := by
  induction denials using List.reverseRecOn with
  | nil => rfl
  | append_singleton denials domain ih =>
    rw [List.map_append, List.map_singleton, upsertAll_concat, ← ih]
    simp only [upsertDenials, List.foldl_append]
    rfl

theorem isSome_upsertDenials (config : NetworkProxyConfig) (denials : List Str) :
    (config.upsertDenials denials).domains.isSome = (config.domains.isSome || denials ≠ []) := by
  induction denials using List.reverseRecOn with
  | nil => simp [upsertDenials]
  | append_singleton denials domain ih =>
    simp [upsertDenials, upsertDomainPermission]

/-- The owner's entries under the controller's denials. -/
def overlay (owner controller : List NetworkDomainPermissionEntry) :
    List NetworkDomainPermissionEntry :=
  upsertAll hostKey owner (deniedEntries controller)

/-- The owner's entries whose hosts the controller does not deny. -/
def undenied (owner controller : List NetworkDomainPermissionEntry) :
    List NetworkDomainPermissionEntry :=
  without hostKey owner (deniedEntries controller)

theorem overlay_eq : overlay owner controller =
    undenied owner controller ++ upsertAll hostKey [] (deniedEntries controller) :=
  upsertAll_eq owner _

/-- After an overlay the denials are those of the owner that were kept and the controller's. -/
theorem deniedEntries_overlay : deniedEntries (overlay owner controller) =
    deniedEntries (undenied owner controller) ++ upsertAll hostKey [] (deniedEntries controller) := by
  rw [overlay_eq]
  refine deniedEntries_append (fun entry hentry => ?_) (fun entry hentry old hold heq => ?_)
    (pairwise_upsertAll _)
  · exact (mem_deniedEntries_iff.mp (mem_of_mem_upsertAll hentry)).2
  · have hnot := (mem_without_iff.mp hold).2
    exact hnot (heq ▸ List.mem_map_of_mem (mem_of_mem_upsertAll hentry))

/-- The second overlay loses entries of the owner that share their host with another entry of
the owner, which is denied. -/
theorem exists_dropped_perm : ∃ dropped,
    (overlay owner controller).Perm (overlay owner (overlay owner controller) ++ dropped) ∧
    ∀ entry ∈ dropped, ∃ denied ∈ overlay owner (overlay owner controller),
      [denied, entry] <+~ owner ∧ denied.permission = .deny ∧ hostKey denied = hostKey entry := by
  set kept := undenied owner controller with hkept
  set denials := upsertAll hostKey [] (deniedEntries kept) with hdenials
  have hnodup : denials.Nodup :=
    (pairwise_upsertAll _).imp fun hne heq => hne (congrArg hostKey heq)
  obtain ⟨shared, hsplit, hshared⟩ := exists_without_perm hostKey kept (deniedEntries kept)
  have hsub : denials ⊆ shared := by
    intro entry hentry
    have hdenied := mem_of_mem_upsertAll hentry
    exact (hshared entry).mpr ⟨(mem_deniedEntries_iff.mp hdenied).1, List.mem_map_of_mem hdenied⟩
  obtain ⟨moved, hmoved, hsublist⟩ := List.subperm_of_subset hnodup hsub
  obtain ⟨dropped, hrest⟩ := hsublist.exists_perm_append
  have hdropped : shared ~ denials ++ dropped := hrest.trans (hmoved.append_right dropped)
  -- the second overlay moves the owner's denials behind the other entries
  have htwice : overlay owner (overlay owner controller) =
      without hostKey kept (deniedEntries kept) ++ denials ++
        upsertAll hostKey [] (deniedEntries controller) := by
    have hsame : without hostKey denials (deniedEntries controller) = denials := by
      refine without_eq_self fun entry hentry => ?_
      have hmem := (mem_deniedEntries_iff.mp (mem_of_mem_upsertAll hentry)).1
      exact (mem_without_iff.mp hmem).2
    rw [overlay, deniedEntries_overlay, upsertAll_append, upsertAll_eq, upsertAll_eq owner,
      upsertAll_of_pairwise (pairwise_upsertAll _), without_upsertAll, without_append, hsame,
      without_comm]
    rfl
  refine ⟨dropped, ?_, fun entry hentry => ?_⟩
  · rw [htwice, overlay_eq]
    calc kept ++ upsertAll hostKey [] (deniedEntries controller)
      _ ~ _ ++ shared ++ upsertAll hostKey [] (deniedEntries controller) := hsplit.append_right _
      _ ~ _ ++ (denials ++ dropped) ++ upsertAll hostKey [] (deniedEntries controller) :=
          (hdropped.append_left _).append_right _
      _ ~ _ := by
          simp only [List.append_assoc]
          exact (List.perm_append_comm.append_left _).append_left _
  · obtain ⟨-, hkey⟩ :=
      (hshared entry).mp (hdropped.symm.subset (List.mem_append_right _ hentry))
    obtain ⟨denied, hdenied, hsame⟩ := List.mem_map.mp (mem_keys_upsertAll.mpr hkey)
    obtain ⟨-, hdeny⟩ := mem_deniedEntries_iff.mp (mem_of_mem_upsertAll hdenied)
    refine ⟨denied, ?_, ?_, hdeny, hsame⟩
    · rw [htwice]
      exact List.mem_append_left _ (List.mem_append_right _ hdenied)
    · have hpair : [denied, entry] <+ denials ++ dropped :=
        (List.singleton_sublist.mpr hdenied).append (List.singleton_sublist.mpr hentry)
      have hkeptShared : shared <+~ kept :=
        (List.sublist_append_right _ shared).subperm.trans hsplit.symm.subperm
      have hkeptOwner : kept <+~ owner := List.filter_sublist.subperm
      exact hpair.subperm.trans (hdropped.symm.subperm.trans (hkeptShared.trans hkeptOwner))

end Domains

/-! ## The policy put over a configuration -/

namespace EnvironmentNetworkPolicy

variable (policy : EnvironmentNetworkPolicy) (config : NetworkProxyConfig)

def domainList : List NetworkDomainPermissionEntry :=
  (policy.domains.map NetworkDomainPermissions.entries).getD []

def sockets : NetworkUnixSocketPermissions := policy.unixSockets.getD .empty

theorem domainList_applyTo :
    (policy.applyTo config).domainList = overlay policy.domainList config.domainList := by
  change ({ config with domains := policy.domains }.upsertDenials _).domainList = _
  rw [domainList_upsertDenials, deniedDomains_getD, map_deny_deniedEntries]
  rfl

theorem isSome_domains_applyTo : (policy.applyTo config).domains.isSome =
    (policy.domains.isSome || deniedEntries config.domainList ≠ []) := by
  change ({ config with domains := policy.domains }.upsertDenials _).domains.isSome = _
  rw [isSome_upsertDenials, deniedDomains_getD]
  simp only [ne_eq, List.map_eq_nil_iff]

theorem isSome_domains_applyTo_applyTo :
    (policy.applyTo (policy.applyTo config)).domains.isSome =
      (policy.applyTo config).domains.isSome := by
  rw [isSome_domains_applyTo, isSome_domains_applyTo, domainList_applyTo]
  cases hdomains : policy.domains with
  | some domains => rfl
  | none =>
    -- without entries of the owner only the controller's denials are there
    have hdenied : deniedEntries (overlay policy.domainList config.domainList) =
        Keyed.upsertAll hostKey [] (deniedEntries config.domainList) := by
      rw [deniedEntries_overlay, domainList, hdomains]
      rfl
    simp only [hdenied, ne_eq, Keyed.upsertAll_eq_nil_iff]

/-- The two sides of the socket permissions. -/
abbrev inheritedPermitsAll : Bool :=
  permitsAllSockets config.inheritedAllowAll (config.unixSockets.getD .empty)

abbrev ownerPermitsAll : Bool :=
  permitsAllSockets policy.dangerouslyAllowAllUnixSockets policy.sockets

theorem unixSockets_applyTo : (policy.applyTo config).unixSockets.getD .empty =
    effectiveSockets (inheritedPermitsAll config) policy.ownerPermitsAll
      (config.unixSockets.getD .empty) policy.sockets := by
  simp only [applyTo]
  split_ifs with hempty
  · refine ext_get fun path => ?_
    exact (isEmpty_iff.mp hempty path).symm
  · rfl

theorem socketGranted_applyTo_iff (path : Str) : (policy.applyTo config).SocketGranted path ↔
    Grants config.inheritedAllowAll (config.unixSockets.getD .empty) path ∧
      Grants policy.dangerouslyAllowAllUnixSockets policy.sockets path := by
  have hinherited : inheritedPermitsAll config = true ↔ _ := permitsAllSockets_iff
  have howner : policy.ownerPermitsAll = true ↔ _ := permitsAllSockets_iff
  have hall : (policy.applyTo config).dangerouslyAllowAllUnixSockets = some true ↔
      inheritedPermitsAll config = true ∧ policy.ownerPermitsAll = true := by
    rw [← Bool.and_eq_true]
    exact Option.some_inj
  rw [NetworkProxyConfig.SocketGranted, unixSockets_applyTo,
    get_effectiveSockets_allow_iff (fun h => (hinherited.mp h).2 path)
      (fun h => (howner.mp h).2 path), Grants, Grants]
  tauto

theorem socketDenied_applyTo_iff (path : Str) :
    ((policy.applyTo config).unixSockets.getD .empty).get path = some .deny ↔
      (config.unixSockets.getD .empty).get path = some .deny ∨
        policy.sockets.get path = some .deny := by
  have howner : policy.ownerPermitsAll = true → policy.sockets.get path ≠ some .deny :=
    fun h => (permitsAllSockets_iff.mp h).2 path
  rw [unixSockets_applyTo, get_effectiveSockets]
  generalize (config.unixSockets.getD .empty).get path = inherited
  generalize policy.sockets.get path = owner at *
  generalize policy.ownerPermitsAll = ownerAll at *
  cases inheritedPermitsAll config <;> cases ownerAll <;>
    rcases inherited with _ | _ | _ <;> rcases owner with _ | _ | _ <;> simp_all

theorem inheritedPermitsAll_applyTo : inheritedPermitsAll (policy.applyTo config) =
    (inheritedPermitsAll config && policy.ownerPermitsAll) := by
  have hallow : (policy.applyTo config).inheritedAllowAll =
      (inheritedPermitsAll config && policy.ownerPermitsAll) := rfl
  rw [Bool.eq_iff_iff, permitsAllSockets_iff, hallow, Bool.and_eq_true]
  refine ⟨And.left, fun h => ⟨h, fun path hdeny => ?_⟩⟩
  rcases (policy.socketDenied_applyTo_iff config path).mp hdeny with hdeny | hdeny
  · exact (permitsAllSockets_iff.mp h.1).2 path hdeny
  · exact (permitsAllSockets_iff.mp h.2).2 path hdeny

theorem unixSockets_applyTo_applyTo : (policy.applyTo (policy.applyTo config)).unixSockets =
    (policy.applyTo config).unixSockets := by
  have hform : ∀ config, (policy.applyTo config).unixSockets =
      (fun effective : NetworkUnixSocketPermissions =>
        if effective.isEmpty then none else some effective)
        (effectiveSockets (inheritedPermitsAll config) policy.ownerPermitsAll
          (config.unixSockets.getD .empty) policy.sockets) := fun _ => rfl
  rw [hform (policy.applyTo config), inheritedPermitsAll_applyTo, unixSockets_applyTo, hform config]
  -- nothing is lost or won if the shared sockets are put under the owner's once more
  congr 1
  refine ext_get fun path => ?_
  have hinherited := fun h => (permitsAllSockets_iff.mp (h : inheritedPermitsAll config = true)).2 path
  have howner := fun h => (permitsAllSockets_iff.mp (h : policy.ownerPermitsAll = true)).2 path
  rw [get_effectiveSockets, get_effectiveSockets]
  generalize (config.unixSockets.getD .empty).get path = inherited at *
  generalize policy.sockets.get path = owner at *
  generalize inheritedPermitsAll config = inheritedAll at *
  generalize policy.ownerPermitsAll = ownerAll at *
  cases inheritedAll <;> cases ownerAll <;>
    rcases inherited with _ | _ | _ <;> rcases owner with _ | _ | _ <;> simp_all [Option.filter_some]

/-- A second application can only change the domains. -/
theorem applyTo_applyTo : policy.applyTo (policy.applyTo config) =
    { policy.applyTo config with
      domains := (policy.applyTo (policy.applyTo config)).domains } := by
  have hall : (inheritedPermitsAll (policy.applyTo config) && policy.ownerPermitsAll) =
      (inheritedPermitsAll config && policy.ownerPermitsAll) := by
    rw [inheritedPermitsAll_applyTo, Bool.and_assoc, Bool.and_self]
  have hupstream : ((config.allowUpstreamProxy && policy.allowUpstreamProxy) &&
      policy.allowUpstreamProxy) = (config.allowUpstreamProxy && policy.allowUpstreamProxy) := by
    rw [Bool.and_assoc, Bool.and_self]
  have hbinding : ∀ controller owner : Option Bool,
      effectiveLocalBinding (effectiveLocalBinding controller owner) owner =
        effectiveLocalBinding controller owner := by
    rintro (_ | _ | _) (_ | _ | _) <;> rfl
  calc policy.applyTo (policy.applyTo config)
    _ = { policy.applyTo config with
          domains := (policy.applyTo (policy.applyTo config)).domains
          unixSockets := (policy.applyTo (policy.applyTo config)).unixSockets
          dangerouslyAllowAllUnixSockets :=
            some (inheritedPermitsAll (policy.applyTo config) && policy.ownerPermitsAll)
          allowUpstreamProxy :=
            (config.allowUpstreamProxy && policy.allowUpstreamProxy) && policy.allowUpstreamProxy
          allowLocalBinding := effectiveLocalBinding
            (effectiveLocalBinding config.allowLocalBinding policy.allowLocalBinding)
            policy.allowLocalBinding } := rfl
    _ = _ := by
        rw [unixSockets_applyTo_applyTo, hall, hupstream, hbinding]
        rfl

/-- Every host that the controller's patterns deny is denied. -/
theorem isMatch_denied_applyTo {before after : ConfigState}
    (hbefore : before.config.domains = config.domains)
    (hafter : after.config.domains = (policy.applyTo config).domains) {host : Str}
    (h : before.denySet.isMatch host = true) : after.denySet.isMatch host = true := by
  have hlist : ∀ {state : ConfigState} {config : NetworkProxyConfig},
      state.config.domains = config.domains →
      state.config.deniedDomains.getD [] =
        (deniedEntries config.domainList).map NetworkDomainPermissionEntry.pattern := by
    intro state config heq
    rw [deniedDomains_getD, NetworkProxyConfig.domainList, heq]
    rfl
  have hold := before.denySet_eq
  have hnew := after.denySet_eq
  rw [hlist hbefore] at hold
  rw [hlist hafter, domainList_applyTo] at hnew
  obtain ⟨pattern, hpattern, candidate, hcandidate, hcovers⟩ := (isMatch_new_iff hold).mp h
  obtain ⟨entry, hentry, rfl⟩ := List.mem_map.mp hpattern
  obtain ⟨denied, hdenied, hkey⟩ := Keyed.exists_mem_upsertAll hostKey hentry
  have hoverlay : denied ∈ deniedEntries (overlay policy.domainList config.domainList) := by
    rw [deniedEntries_overlay]
    exact List.mem_append_right _ hdenied
  have hmem : denied.pattern ∈ _ := List.mem_map_of_mem hoverlay
  refine (isMatch_new_iff hnew).mpr ⟨denied.pattern, hmem, candidate, ?_, hcovers⟩
  rw [candidates_congr (supported_of_new hnew hmem) (supported_of_new hold hpattern) hkey]
  exact hcandidate

/-- The policy over the configuration grants what both sides grant, keeps the denials of both
and, put over it once more, changes no more than the order of the entries and those entries of
the owner that share their host with a denied one. -/
theorem applyTo_restricts (policy : EnvironmentNetworkPolicy) (config : NetworkProxyConfig) :
    let first := policy.applyTo config
    let second := policy.applyTo first
    (∀ path, first.SocketGranted path ↔
      Grants config.inheritedAllowAll (config.unixSockets.getD .empty) path ∧
        Grants policy.dangerouslyAllowAllUnixSockets policy.sockets path) ∧
    (∀ path, (config.unixSockets.getD .empty).get path = some .deny ∨
      policy.sockets.get path = some .deny →
        (first.unixSockets.getD .empty).get path = some .deny) ∧
    (∀ before after : ConfigState, before.config.domains = config.domains →
      after.config.domains = first.domains →
      ∀ resolver binding host port allowLocalBinding authorization,
        (hostBlockedWithLookup resolver binding (.ok before) host port allowLocalBinding
          authorization).1 = .ok (.blocked .denied) →
        (hostBlockedWithLookup resolver binding (.ok after) host port allowLocalBinding
          authorization).1 = .ok (.blocked .denied)) ∧
    (first.allowUpstreamProxy = true →
      config.allowUpstreamProxy = true ∧ policy.allowUpstreamProxy = true) ∧
    (∀ binding override, localBindingAllowed binding first override = true →
      config.allowLocalBinding ≠ some false ∧ policy.allowLocalBinding ≠ some false) ∧
    second = { first with domains := second.domains } ∧
    second.domains.isSome = first.domains.isSome ∧
    ∃ dropped, first.domainList.Perm (second.domainList ++ dropped) ∧
      ∀ entry ∈ dropped, ∃ denied ∈ second.domainList, [denied, entry] <+~ policy.domainList ∧
        denied.permission = .deny ∧ normalizeHost denied.pattern = normalizeHost entry.pattern := by
  refine ⟨policy.socketGranted_applyTo_iff config,
    fun path => (policy.socketDenied_applyTo_iff config path).mpr,
    fun before after hbefore hafter resolver binding host port allowLocalBinding authorization h => ?_,
    fun h => Bool.and_eq_true_iff.mp h,
    fun binding override h => ?_,
    policy.applyTo_applyTo config, policy.isSome_domains_applyTo_applyTo config, ?_⟩
  · simp only [hostBlockedWithLookup] at h ⊢
    cases hparse : Host.parse host with
    | error _ => simp [hparse] at h
    | ok host =>
      rw [hparse] at h
      have hdenied := judgeHost_denied_iff.mp (Except.ok.inj h)
      refine congrArg Except.ok (judgeHost_denied_iff.mpr ?_)
      rw [domainsMatchHostOrUnscoped, Bool.or_eq_true, Option.any_eq_true] at hdenied ⊢
      refine hdenied.imp (policy.isMatch_denied_applyTo config hbefore hafter) ?_
      rintro ⟨unscoped, hunscoped, hmatch⟩
      exact ⟨unscoped, hunscoped, policy.isMatch_denied_applyTo config hbefore hafter hmatch⟩
  · have hmerged : effectiveLocalBinding config.allowLocalBinding policy.allowLocalBinding ≠
        some false := of_decide_eq_true (Bool.and_eq_true_iff.mp h).2
    generalize config.allowLocalBinding = controller at hmerged ⊢
    generalize policy.allowLocalBinding = owner at hmerged ⊢
    constructor
    · rintro rfl
      cases owner <;> exact hmerged rfl
    · rintro rfl
      rcases controller with _ | _ | _ <;> exact hmerged rfl
  · simp only [domainList_applyTo]
    exact exists_dropped_perm

/-- A host that is denied and allowed in two spellings keeps only the denial. -/
theorem second_application_drops_entry :
    let policy : EnvironmentNetworkPolicy :=
      { requiresProxy := false
        domains := some ⟨[⟨"Example.com".toList, .deny⟩, ⟨"example.com".toList, .allow⟩]⟩
        unixSockets := none
        allowUpstreamProxy := true
        dangerouslyAllowAllUnixSockets := false
        allowLocalBinding := none
        managedAllowedDomainsOnly := false }
    let first := policy.applyTo .default
    first.domainList = [⟨"Example.com".toList, .deny⟩, ⟨"example.com".toList, .allow⟩] ∧
      (policy.applyTo first).domainList = [⟨"Example.com".toList, .deny⟩] ∧
      ¬ (policy.applyTo first).domainList.Perm first.domainList := by
  refine ⟨by decide, by decide, fun hperm => ?_⟩
  exact absurd hperm.length_eq (by decide)

end EnvironmentNetworkPolicy

end Codex.NetworkProxy
