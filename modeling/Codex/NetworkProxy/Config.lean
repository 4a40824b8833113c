import Codex.Lib.SortedMap
import Codex.NetworkProxy.DomainMatcher
import Codex.Path.PathUri
import Mathlib.Data.Char
import Mathlib.Data.List.Lex

/-!
# The proxy's configuration

The part of the configuration that the policy functions read: domain permissions, an
ordered list in which a pattern may occur more than once, and socket permissions, a map.
What an occurrence of a pattern counts for is `mem_effectiveEntries_iff`: the strongest of
its permissions, a denial over a grant.

The result about an update of the list is `mem_effectiveEntries_upsert`.
-/

namespace Codex.NetworkProxy

open Text Bytes List

/-! ## Domain permissions -/

inductive NetworkDomainPermission where
  | none
  | allow
  | deny
  deriving DecidableEq, Repr

/-- The order of the variants; the later one wins. -/
def NetworkDomainPermission.rank : NetworkDomainPermission → ℕ
  | none => 0
  | allow => 1
  | deny => 2

structure NetworkDomainPermissionEntry where
  pattern : Str
  permission : NetworkDomainPermission
  deriving DecidableEq, Repr

structure NetworkDomainPermissions where
  entries : List NetworkDomainPermissionEntry
  deriving DecidableEq, Repr

/-- One entry put into the list of effective entries: its pattern takes the place of its first
occurrence and the stronger permission. -/
def addEffective (effective : List NetworkDomainPermissionEntry)
    (entry : NetworkDomainPermissionEntry) : List NetworkDomainPermissionEntry :=
  if ∃ known ∈ effective, known.pattern = entry.pattern then
    effective.map fun known =>
      if known.pattern = entry.pattern ∧ known.permission.rank < entry.permission.rank then
        { known with permission := entry.permission }
      else known
  else effective ++ [entry]

def NetworkDomainPermissions.effectiveEntries (domains : NetworkDomainPermissions) :
    List NetworkDomainPermissionEntry :=
  domains.entries.foldl addEffective []

/-! ## Socket permissions -/

inductive NetworkUnixSocketPermission where
  | allow
  | deny
  deriving DecidableEq, Repr

abbrev NetworkUnixSocketPermissions := SortedMap Str NetworkUnixSocketPermission

inductive NetworkMode where
  | limited
  | full
  deriving DecidableEq, Repr

/-! ## The configuration -/

structure NetworkMitmCaConfig where
  certificateFile : Str
  privateKeyFile : Str
  deriving DecidableEq, Repr

structure NetworkProxyConfig where
  enabled : Bool
  allowUpstreamProxy : Bool
  dangerouslyAllowNonLoopbackProxy : Bool
  dangerouslyAllowAllUnixSockets : Option Bool
  mode : NetworkMode
  domains : Option NetworkDomainPermissions
  unixSockets : Option NetworkUnixSocketPermissions
  allowLocalBinding : Option Bool
  mitm : Bool
  mitmCa : Option NetworkMitmCaConfig
  credentialBroker : Bool
  deriving DecidableEq

namespace NetworkProxyConfig

protected def default : NetworkProxyConfig where
  enabled := false
  allowUpstreamProxy := true
  dangerouslyAllowNonLoopbackProxy := false
  dangerouslyAllowAllUnixSockets := none
  mode := .full
  domains := none
  unixSockets := none
  allowLocalBinding := none
  mitm := false
  mitmCa := none
  credentialBroker := false

variable (config : NetworkProxyConfig)

def domainEntries (permission : NetworkDomainPermission) : Option (List Str) :=
  (config.domains.map fun domains =>
    (domains.effectiveEntries.filter fun entry => entry.permission = permission).map
      NetworkDomainPermissionEntry.pattern).filter (· ≠ [])

def allowedDomains : Option (List Str) := config.domainEntries .allow

def deniedDomains : Option (List Str) := config.domainEntries .deny

def allowUnixSockets : List Str :=
  match config.unixSockets with
  | some sockets => (sockets.entries.filter fun entry => entry.2 = .allow).map Prod.fst
  | none => []

/-- The permission replaces those of all patterns that normalise to the same host. -/
def upsertDomainPermission (host : Str) (permission : NetworkDomainPermission) :
    NetworkProxyConfig :=
  let entries := (config.domains.map NetworkDomainPermissions.entries).getD []
  let entries := entries.filter fun entry => normalizeHost entry.pattern ≠ normalizeHost host
  { config with domains := some ⟨entries ++ [⟨host, permission⟩]⟩ }

def setDomainEntries (patterns : List Str) (permission : NetworkDomainPermission) :
    NetworkProxyConfig :=
  let entries := (config.domains.map NetworkDomainPermissions.entries).getD []
  let entries := entries.filter fun entry => entry.permission ≠ permission
  let entries := patterns.foldl (fun entries pattern =>
    if ⟨pattern, permission⟩ ∈ entries then entries else entries ++ [⟨pattern, permission⟩]) entries
  { config with domains := if entries = [] then none else some ⟨entries⟩ }

def setAllowedDomains (allowedDomains : List Str) : NetworkProxyConfig :=
  config.setDomainEntries allowedDomains .allow

end NetworkProxyConfig

/-! ## Which entries are effective -/

section Effective

variable {entries effective : List NetworkDomainPermissionEntry}
  {entry : NetworkDomainPermissionEntry}

/-- The effective entries of a list: of each pattern, those with the strongest permission. -/
structure Effective (entries effective : List NetworkDomainPermissionEntry) : Prop where
  mem_iff : ∀ entry, entry ∈ effective ↔ entry ∈ entries ∧
    ∀ other ∈ entries, other.pattern = entry.pattern → other.permission.rank ≤ entry.permission.rank
  exists_of_mem : ∀ entry ∈ entries, ∃ known ∈ effective, known.pattern = entry.pattern

theorem NetworkDomainPermission.eq_of_rank_eq {p q : NetworkDomainPermission}
    (h : p.rank = q.rank) : p = q := by
  cases p <;> cases q <;> simp [rank] at h <;> rfl

theorem Effective.add_fresh (h : Effective entries effective)
    (hfresh : ¬ ∃ known ∈ effective, known.pattern = entry.pattern) :
    Effective (entries ++ [entry]) (effective ++ [entry]) := by
  have hnew : ∀ other ∈ entries, other.pattern ≠ entry.pattern := by
    intro other hother heq
    obtain ⟨known, hknown, hpattern⟩ := h.exists_of_mem other hother
    exact hfresh ⟨known, hknown, hpattern.trans heq⟩
  refine ⟨fun e => ?_, fun e he => ?_⟩
  · simp only [mem_append, mem_singleton, h.mem_iff]
    constructor
    · rintro (⟨he, hmax⟩ | rfl)
      · refine ⟨.inl he, ?_⟩
        rintro other (hother | rfl) hpattern
        · exact hmax other hother hpattern
        · exact absurd hpattern.symm (hnew e he)
      · refine ⟨.inr rfl, ?_⟩
        rintro other (hother | rfl) hpattern
        · exact absurd hpattern (hnew other hother)
        · exact le_rfl
    · rintro ⟨he | rfl, hmax⟩
      · exact .inl ⟨he, fun other hother => hmax other (.inl hother)⟩
      · exact .inr rfl
  · rcases mem_append.mp he with he | he
    · obtain ⟨known, hknown, hpattern⟩ := h.exists_of_mem e he
      exact ⟨known, mem_append_left _ hknown, hpattern⟩
    · cases mem_singleton.mp he
      exact ⟨entry, by simp, rfl⟩

theorem Effective.add_known (h : Effective entries effective)
    (hknown : ∃ known ∈ effective, known.pattern = entry.pattern) :
    Effective (entries ++ [entry]) (addEffective effective entry) := by
  rw [addEffective, if_pos hknown]
  refine ⟨fun e => ?_, fun e he => ?_⟩
  · simp only [mem_map, mem_append, mem_singleton]
    constructor
    · rintro ⟨known, hmem, rfl⟩
      obtain ⟨hold, hmax⟩ := (h.mem_iff known).mp hmem
      split_ifs with hraise
      · -- a weaker permission of the same pattern is raised to the new entry
        have heq : { known with permission := entry.permission } = entry := by
          rw [hraise.1]
        rw [heq]
        refine ⟨.inr rfl, ?_⟩
        rintro other (hother | rfl) hpattern
        · exact (hmax other hother (hpattern.trans hraise.1.symm)).trans hraise.2.le
        · exact le_rfl
      · refine ⟨.inl hold, ?_⟩
        rintro other (hother | rfl) hpattern
        · exact hmax other hother hpattern
        · exact not_lt.mp fun hlt => hraise ⟨hpattern.symm, hlt⟩
    · rintro ⟨he | rfl, hmax⟩
      · refine ⟨e, (h.mem_iff e).mpr ⟨he, fun other hother => hmax other (.inl hother)⟩, ?_⟩
        rw [if_neg]
        rintro ⟨hpattern, hlt⟩
        exact absurd (hmax entry (.inr rfl) hpattern.symm) (not_le.mpr hlt)
      · obtain ⟨known, hmem, hpattern⟩ := hknown
        have hle := hmax known (.inl ((h.mem_iff known).mp hmem).1) hpattern
        refine ⟨known, hmem, ?_⟩
        obtain ⟨pattern, permission⟩ := known
        cases hpattern
        split_ifs with hraise
        · rfl
        · have heq : permission = e.permission :=
            NetworkDomainPermission.eq_of_rank_eq (le_antisymm hle (by simpa using hraise))
          rw [heq]
  · -- raising a permission changes no pattern
    have hmap : ∀ known ∈ effective, ∃ raised ∈ effective.map (fun known =>
        if known.pattern = entry.pattern ∧ known.permission.rank < entry.permission.rank then
          { known with permission := entry.permission } else known),
        raised.pattern = known.pattern := by
      intro known hmem
      refine ⟨_, mem_map_of_mem hmem, ?_⟩
      split_ifs <;> rfl
    have hold : ∃ known ∈ effective, known.pattern = e.pattern := by
      rcases mem_append.mp he with he | he
      · exact h.exists_of_mem e he
      · cases mem_singleton.mp he
        exact hknown
    obtain ⟨known, hmem, hpattern⟩ := hold
    obtain ⟨raised, hraised, hsame⟩ := hmap known hmem
    exact ⟨raised, hraised, hsame.trans hpattern⟩

theorem effective_effectiveEntries (domains : NetworkDomainPermissions) :
    Effective domains.entries domains.effectiveEntries := by
  unfold NetworkDomainPermissions.effectiveEntries
  induction domains.entries using List.reverseRecOn with
  | nil => exact ⟨by simp, by simp⟩
  | append_singleton entries entry ih =>
    rw [foldl_append, foldl_cons]
    by_cases hknown : ∃ known ∈ entries.foldl addEffective [], known.pattern = entry.pattern
    · exact ih.add_known hknown
    · rw [addEffective, if_neg hknown]
      exact ih.add_fresh hknown

end Effective

/-- The entries of the configuration, none where the map is missing. -/
def NetworkProxyConfig.domainList (config : NetworkProxyConfig) :
    List NetworkDomainPermissionEntry :=
  (config.domains.map NetworkDomainPermissions.entries).getD []

/-- The new permission is effective for its host, and no other one for any spelling of it; other
hosts keep what was effective. -/
theorem mem_effectiveEntries_upsert (config : NetworkProxyConfig) (host : Str)
    (permission : NetworkDomainPermission) (entry : NetworkDomainPermissionEntry) :
    entry ∈ NetworkDomainPermissions.effectiveEntries
        ⟨(config.upsertDomainPermission host permission).domainList⟩ ↔
      entry = ⟨host, permission⟩ ∨
        entry ∈ NetworkDomainPermissions.effectiveEntries ⟨config.domainList⟩ ∧
          normalizeHost entry.pattern ≠ normalizeHost host := by
  rw [(effective_effectiveEntries _).mem_iff, (effective_effectiveEntries _).mem_iff]
  grind [NetworkProxyConfig.upsertDomainPermission, NetworkProxyConfig.domainList]

end Codex.NetworkProxy
