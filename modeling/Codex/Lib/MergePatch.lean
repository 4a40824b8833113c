import Codex.Lib.SortedMap

/-!
# JSON merge patches

JSON trees and the patches of RFC 7386: a patch is a tree whose `null` members take a member
away, whose object members patch what they find and whose other members replace it.

An object is the list of its members in the order of their keys, each key once; that is
`Canonical`, for objects inside of objects and arrays too.  What the operations do to an object
is said by what is found under a key (`lookup`).  The patch from one tree to another brings the
first to the second (`applyPatch_createPatch`) if the second is `NullFree`: no member of an object
outside of arrays is `null`.
-/

namespace Codex

open SortedMap List

inductive Json (κ σ : Type*) where
  | null
  | scalar (value : σ)
  | array (items : List (Json κ σ))
  | object (members : List (κ × Json κ σ))

namespace Json

section Equality

variable {κ σ : Type*} [DecidableEq κ] [DecidableEq σ]

mutual

/-- Whether two trees are equal. -/
def same : Json κ σ → Json κ σ → Bool
  | .null, .null => true
  | .scalar value, .scalar value' => value = value'
  | .array items, .array items' => sameItems items items'
  | .object members, .object members' => sameMembers members members'
  | _, _ => false

def sameItems : List (Json κ σ) → List (Json κ σ) → Bool
  | [], [] => true
  | item :: items, item' :: items' => same item item' && sameItems items items'
  | _, _ => false

def sameMembers : List (κ × Json κ σ) → List (κ × Json κ σ) → Bool
  | [], [] => true
  | (key, value) :: members, (key', value') :: members' =>
    key = key' && same value value' && sameMembers members members'
  | _, _ => false

end

mutual

theorem same_iff : ∀ v w : Json κ σ, same v w = true ↔ v = w
  | .null, w => by cases w <;> simp [same]
  | .scalar value, w => by cases w <;> simp [same]
  | .array items, w => by
      cases w with
      | array items' => simp [same, sameItems_iff items items']
      | _ => simp [same]
  | .object members, w => by
      cases w with
      | object members' => simp [same, sameMembers_iff members members']
      | _ => simp [same]

theorem sameItems_iff : ∀ items items' : List (Json κ σ), sameItems items items' = true ↔
    items = items'
  | [], items' => by cases items' <;> simp [sameItems]
  | item :: items, items' => by
      cases items' with
      | nil => simp [sameItems]
      | cons item' items' => simp [sameItems, same_iff item item', sameItems_iff items items']

theorem sameMembers_iff : ∀ members members' : List (κ × Json κ σ),
    sameMembers members members' = true ↔ members = members'
  | [], members' => by cases members' <;> simp [sameMembers]
  | (key, value) :: members, members' => by
      cases members' with
      | nil => simp [sameMembers]
      | cons member' members' =>
        simp [sameMembers, same_iff value, sameMembers_iff members members', Prod.ext_iff,
          and_assoc]

end

instance : DecidableEq (Json κ σ) := fun v w => decidable_of_iff (same v w = true) (same_iff v w)

end Equality

variable {κ σ : Type*} [LinearOrder κ]

/-- The members of an object; anything else has none. -/
def members : Json κ σ → List (κ × Json κ σ)
  | .object members => members
  | _ => []

def lookup (members : List (κ × Json κ σ)) (key : κ) : Option (Json κ σ) :=
  (members.find? fun member => member.1 = key).map Prod.snd

def erase (members : List (κ × Json κ σ)) (key : κ) : List (κ × Json κ σ) :=
  members.filter fun member => member.1 ≠ key

def isNull : Json κ σ → Bool
  | .null => true
  | _ => false

/-! ## Patches -/

section Patch

variable [DecidableEq σ]

def addRemoval (current patch : List (κ × Json κ σ)) (member : κ × Json κ σ) :
    List (κ × Json κ σ) :=
  if (lookup current member.1).isSome then patch
  else insertEntry patch member.1 .null

/-- The members that a patch takes away. -/
def removals (previous current : List (κ × Json κ σ)) : List (κ × Json κ σ) :=
  previous.foldl (addRemoval current) []

mutual

def createPatch (previous : Json κ σ) : Json κ σ → Option (Json κ σ)
  | .object current =>
    if previous = .object current then none
    else some (.object (patchMembers previous.members current (removals previous.members current)))
  | current => if previous = current then none else some current

/-- The patch so far, with what the members of the current object add to it. -/
def patchMembers (previous : List (κ × Json κ σ)) :
    List (κ × Json κ σ) → List (κ × Json κ σ) → List (κ × Json κ σ)
  | [], patch => patch
  | (key, value) :: rest, patch =>
    patchMembers previous rest (match lookup previous key with
        | none => insertEntry patch key value
        | some previousValue =>
          match createPatch previousValue value with
          | some valuePatch => insertEntry patch key valuePatch
          | none => patch)

end

mutual

def applyPatch (target : Json κ σ) : Json κ σ → Json κ σ
  | .object patch => .object (applyMembers target.members patch)
  | patch => patch

def applyMembers (target : List (κ × Json κ σ)) : List (κ × Json κ σ) → List (κ × Json κ σ)
  | [] => target
  | (key, value) :: rest =>
    applyMembers
      (if value.isNull then erase target key
        else insertEntry target key (applyPatch ((lookup target key).getD .null) value))
      rest

end

end Patch

mutual

/-- Without the `null` members of objects outside of arrays. -/
def removeNullMembers : Json κ σ → Json κ σ
  | .object members => .object (removeNulls members)
  | value => value

def removeNulls : List (κ × Json κ σ) → List (κ × Json κ σ)
  | [] => []
  | (key, value) :: rest =>
    if value.isNull then removeNulls rest
    else (key, removeNullMembers value) :: removeNulls rest

end

/-! ## Canonical trees -/

/-- Keys in order, each once. -/
def Sorted (members : List (κ × Json κ σ)) : Prop :=
  members.Pairwise fun member member' => member.1 < member'.1

inductive Canonical : Json κ σ → Prop
  | null : Canonical .null
  | scalar (value : σ) : Canonical (.scalar value)
  | array {items : List (Json κ σ)} (hitems : ∀ item ∈ items, Canonical item) :
      Canonical (.array items)
  | object {members : List (κ × Json κ σ)} (hsorted : Sorted members)
      (hmembers : ∀ member ∈ members, Canonical member.2) : Canonical (.object members)

/-- No member of an object outside of arrays is `null`. -/
inductive NullFree : Json κ σ → Prop
  | null : NullFree .null
  | scalar (value : σ) : NullFree (.scalar value)
  | array (items : List (Json κ σ)) : NullFree (.array items)
  | object {members : List (κ × Json κ σ)} (hne : ∀ member ∈ members, member.2 ≠ .null)
      (hmembers : ∀ member ∈ members, NullFree member.2) : NullFree (.object members)

omit [LinearOrder κ] in
theorem isNull_iff {value : Json κ σ} : value.isNull = true ↔ value = .null := by
  cases value <;> simp [isNull]

section Members

variable {members members' : List (κ × Json κ σ)} {key : κ} {value : Json κ σ}

theorem mem_of_lookup (h : lookup members key = some value) : (key, value) ∈ members := by
  obtain ⟨⟨key', value'⟩, hfind, rfl⟩ := Option.map_eq_some_iff.mp h
  have hkey : key' = key := by simpa using find?_some hfind
  exact hkey ▸ mem_of_find?_eq_some hfind

section

variable (h : Sorted members)
include h

theorem eq_of_lookup (h' : Sorted members')
    (hlookup : ∀ key, lookup members key = lookup members' key) : members = members' :=
  congrArg entries (@ext_get _ _ _ ⟨members, h⟩ ⟨members', h'⟩ hlookup)

theorem lookup_insertEntry (key' : κ) :
    lookup (insertEntry members key value) key' =
      if key' = key then some value else lookup members key' :=
  get_insert (m := ⟨members, h⟩)

theorem sorted_insertEntry : Sorted (insertEntry members key value) := pairwise_insertEntry h

theorem lookup_erase (key' : κ) :
    lookup (erase members key) key' = if key' = key then none else lookup members key' :=
  get_erase (m := ⟨members, h⟩)

theorem sorted_erase : Sorted (erase members key) := h.filter _

end

@[simp] theorem lookup_nil : lookup ([] : List (κ × Json κ σ)) key = none := rfl

theorem lookup_cons (key' : κ) :
    lookup ((key, value) :: members) key' =
      if key' = key then some value else lookup members key' := by
  unfold lookup
  split_ifs with hkey
  · rw [find?_cons_of_pos (by simpa using hkey.symm)]
    rfl
  · rw [find?_cons_of_neg (by simpa using Ne.symm hkey)]

/-- The first key is not found again. -/
theorem lookup_tail (h : Sorted ((key, value) :: members)) : lookup members key = none := by
  rw [Option.eq_none_iff_forall_ne_some]
  intro value' hvalue
  exact lt_irrefl key ((pairwise_cons.mp h).1 _ (mem_of_lookup hvalue))

end Members

/-! ## What is found in a patch and in what it is applied to -/

section Lookup

variable {previous current patch target : List (κ × Json κ σ)}

theorem sorted_addRemoval (hpatch : Sorted patch) (member : κ × Json κ σ) :
    Sorted (addRemoval current patch member) := by
  unfold addRemoval
  split_ifs
  · exact hpatch
  · exact sorted_insertEntry hpatch

theorem sorted_removals : Sorted (removals previous current) :=
  List.foldlRecOn _ _ .nil fun _ hpatch member _ => sorted_addRemoval hpatch member

theorem lookup_foldl_addRemoval (hpatch : Sorted patch) (key : κ) :
    lookup (previous.foldl (addRemoval current) patch) key =
      if (lookup previous key).isSome ∧ lookup current key = none then some .null
      else lookup patch key := by
  induction previous generalizing patch with
  | nil => simp [lookup]
  | cons member rest ih =>
    obtain ⟨key', value⟩ := member
    rw [foldl_cons, ih (sorted_addRemoval hpatch _), lookup_cons]
    unfold addRemoval
    by_cases hkey : key = key'
    · subst hkey
      cases hcurrent : lookup current key with
      | none => simp [lookup_insertEntry hpatch]
      | some value' => simp
    · cases hcurrent : lookup current key' with
      | none => simp [lookup_insertEntry hpatch, hkey]
      | some value' => simp [hkey]

theorem lookup_removals (key : κ) :
    lookup (removals previous current) key =
      if (lookup previous key).isSome ∧ lookup current key = none then some .null else none :=
  lookup_foldl_addRemoval .nil key

theorem sorted_applyMembers (htarget : Sorted target) : Sorted (applyMembers target patch) := by
  induction patch generalizing target with
  | nil => exact htarget
  | cons member rest ih =>
    apply ih
    split_ifs
    · exact sorted_erase htarget
    · exact sorted_insertEntry htarget

theorem lookup_applyMembers (htarget : Sorted target) (hpatch : Sorted patch) (key : κ) :
    lookup (applyMembers target patch) key =
      match lookup patch key with
      | none => lookup target key
      | some value =>
        if value.isNull then none
        else some (applyPatch ((lookup target key).getD .null) value) := by
  induction patch generalizing target with
  | nil => rfl
  | cons member rest ih =>
    obtain ⟨key', value⟩ := member
    have hrest : Sorted rest := (pairwise_cons.mp hpatch).2
    have htail : lookup rest key' = none := lookup_tail hpatch
    rw [applyMembers, lookup_cons]
    by_cases hnull : value.isNull = true
    · rw [if_pos hnull, ih (sorted_erase htarget) hrest, lookup_erase htarget]
      by_cases hkey : key = key'
      · subst hkey
        simp [htail, hnull]
      · simp [hkey]
    · rw [if_neg hnull, ih (sorted_insertEntry htarget) hrest, lookup_insertEntry htarget]
      by_cases hkey : key = key'
      · subst hkey
        simp [htail, hnull]
      · simp [hkey]

variable [DecidableEq σ] {key : κ} {value : Json κ σ}

/-- The patch with what one member of the current object adds to it. -/
def addChange (previous patch : List (κ × Json κ σ)) (key : κ) (value : Json κ σ) :
    List (κ × Json κ σ) :=
  match lookup previous key with
  | none => insertEntry patch key value
  | some previousValue =>
    match createPatch previousValue value with
    | some valuePatch => insertEntry patch key valuePatch
    | none => patch

theorem patchMembers_cons (rest : List (κ × Json κ σ)) :
    patchMembers previous ((key, value) :: rest) patch =
      patchMembers previous rest (addChange previous patch key value) := by
  rfl

variable (hpatch : Sorted patch)
include hpatch

theorem sorted_addChange : Sorted (addChange previous patch key value) := by
  unfold addChange
  split
  · exact sorted_insertEntry hpatch
  · split
    · exact sorted_insertEntry hpatch
    · exact hpatch

theorem lookup_addChange (key' : κ) :
    lookup (addChange previous patch key value) key' =
      if key' = key then
        match lookup previous key with
        | none => some value
        | some previousValue => (createPatch previousValue value).or (lookup patch key)
      else lookup patch key' := by
  unfold addChange
  cases lookup previous key with
  | none => exact lookup_insertEntry hpatch key'
  | some previousValue =>
    cases hcreate : createPatch previousValue value with
    | none =>
      simp only [hcreate, Option.none_or]
      split_ifs with hkey
      · rw [hkey]
      · rfl
    | some valuePatch => simp [hcreate, lookup_insertEntry hpatch]

theorem sorted_patchMembers : Sorted (patchMembers previous current patch) := by
  induction current generalizing patch with
  | nil => exact hpatch
  | cons member rest ih =>
    exact ih (sorted_addChange hpatch)

theorem lookup_patchMembers (hcurrent : Sorted current) (key : κ) :
    lookup (patchMembers previous current patch) key =
      match lookup current key with
      | none => lookup patch key
      | some value =>
        match lookup previous key with
        | none => some value
        | some previousValue => (createPatch previousValue value).or (lookup patch key) := by
  induction current generalizing patch with
  | nil => rfl
  | cons member rest ih =>
    obtain ⟨key', value⟩ := member
    have hrest : Sorted rest := (pairwise_cons.mp hcurrent).2
    rw [patchMembers_cons, ih (sorted_addChange hpatch) hrest, lookup_addChange hpatch, lookup_cons]
    by_cases hkey : key = key'
    · subst hkey
      simp [lookup_tail hcurrent]
    · simp [hkey]

end Lookup

/-! ## Canonical trees stay canonical -/

section Canonical

variable {members current previous patch target : List (κ × Json κ σ)} {key : κ}
  {value : Json κ σ}

section

variable (h : Canonical (.object members))
include h

theorem Canonical.sorted : Sorted members := by
  cases h with
  | object hsorted _ => exact hsorted

omit h in
theorem canonical_members (h : Canonical value) : Canonical (.object value.members) := by
  cases h with
  | object hsorted hmembers => exact .object hsorted hmembers
  | _ => exact .object .nil (by simp [members])

theorem Canonical.of_lookup (hlookup : lookup members key = some value) : Canonical value := by
  cases h with
  | object _ hmembers => exact hmembers _ (mem_of_lookup hlookup)

theorem Canonical.getD_lookup (key : κ) : Canonical ((lookup members key).getD .null) := by
  cases hlookup : lookup members key with
  | none => exact .null
  | some value => exact h.of_lookup hlookup

theorem Canonical.insertEntry (hvalue : Canonical value) :
    Canonical (.object (insertEntry members key value)) := by
  cases h with
  | object hsorted hmembers =>
    refine .object (sorted_insertEntry hsorted) fun member hmember => ?_
    rcases (mem_insertEntry hsorted).mp hmember with rfl | ⟨hold, -⟩
    · exact hvalue
    · exact hmembers member hold

theorem Canonical.erase : Canonical (.object (erase members key)) := by
  cases h with
  | object hsorted hmembers =>
    exact .object (sorted_erase hsorted) fun member hmember =>
      hmembers member (mem_filter.mp hmember).1

end

theorem canonical_removals : Canonical (.object (removals previous current)) := by
  refine List.foldlRecOn (motive := fun patch => Canonical (.object patch)) _ _
    (.object .nil (by simp)) fun patch hpatch member _ => ?_
  unfold addRemoval
  split_ifs
  · exact hpatch
  · exact hpatch.insertEntry .null

/-- Applying members to a canonical object, if each value is applied canonically. -/
theorem canonical_applyMembers (htarget : Canonical (.object target))
    (hpatch : ∀ member ∈ patch, ∀ value : Json κ σ, Canonical value →
      Canonical (applyPatch value member.2)) :
    Canonical (.object (applyMembers target patch)) := by
  induction patch generalizing target with
  | nil => exact htarget
  | cons member rest ih =>
    refine ih ?_ fun member hmember => hpatch member (mem_cons_of_mem _ hmember)
    split_ifs
    · exact htarget.erase
    · exact htarget.insertEntry (hpatch member (mem_cons_self ..) _ (htarget.getD_lookup member.1))

theorem Canonical.applyPatch {patch : Json κ σ} (hpatch : Canonical patch) (hvalue : Canonical value) :
    Canonical (value.applyPatch patch) := by
  induction hpatch generalizing value with
  | null => exact Canonical.null
  | scalar leaf => exact Canonical.scalar leaf
  | array hitems => exact Canonical.array hitems
  | object hsorted hmembers ih =>
    exact canonical_applyMembers (canonical_members hvalue) fun member hmember value hvalue =>
      ih member hmember hvalue

variable [DecidableEq σ]

theorem canonical_patchMembers (hcurrent : ∀ member ∈ current, Canonical member.2)
    (hcreate : ∀ member ∈ current, ∀ previous patch : Json κ σ,
      createPatch previous member.2 = some patch → Canonical patch)
    (hpatch : Canonical (.object patch)) :
    Canonical (.object (patchMembers previous current patch)) := by
  induction current generalizing patch with
  | nil => exact hpatch
  | cons member rest ih =>
    obtain ⟨key, value⟩ := member
    rw [patchMembers_cons]
    refine ih (fun member hmember => hcurrent member (mem_cons_of_mem _ hmember))
      (fun member hmember => hcreate member (mem_cons_of_mem _ hmember)) ?_
    unfold addChange
    split
    · exact hpatch.insertEntry (hcurrent (key, value) (mem_cons_self ..))
    · split
      · next valuePatch hvaluePatch =>
          exact hpatch.insertEntry (hcreate (key, value) (mem_cons_self ..) _ _ hvaluePatch)
      · exact hpatch

theorem createPatch_object (previous : Json κ σ) :
    createPatch previous (.object current) =
      if previous = .object current then none
      else some (.object (patchMembers previous.members current
        (removals previous.members current))) := by
  rw [createPatch]

/-- What is no object replaces what it patches. -/
theorem eq_of_createPatch {current previous patch : Json κ σ}
    (hleaf : ∀ members, current ≠ .object members)
    (h : createPatch previous current = some patch) : patch = current := by
  cases current with
  | object members => exact absurd rfl (hleaf members)
  | _ =>
    simp only [createPatch] at h
    split_ifs at h
    exact (Option.some.inj h).symm

theorem Canonical.createPatch {current previous patch : Json κ σ} (hcurrent : Canonical current)
    (h : createPatch previous current = some patch) : Canonical patch := by
  induction hcurrent generalizing previous patch with
  | object hsorted hmembers ih =>
    rw [createPatch_object] at h
    split_ifs at h
    cases h
    exact canonical_patchMembers hmembers
      (fun member hmember previous patch hcreate => ih member hmember hcreate)
      canonical_removals
  | null => exact eq_of_createPatch (by simp) h ▸ .null
  | scalar value => exact eq_of_createPatch (by simp) h ▸ .scalar value
  | array hitems => exact eq_of_createPatch (by simp) h ▸ .array hitems

/-- The patch between two objects. -/
theorem canonical_patchMembers_removals (hcurrent : Canonical (.object current)) :
    Canonical (.object (patchMembers previous current (removals previous current))) := by
  cases hcurrent with
  | object _ hmembers =>
    exact canonical_patchMembers hmembers
      (fun member hmember _ _ hcreate => (hmembers member hmember).createPatch hcreate)
      canonical_removals

end Canonical

/-! ## A patch brings the first tree to the second -/

section Advance

variable {members previous current : List (κ × Json κ σ)}

/-- What is put where nothing was. -/
theorem applyPatch_null {value : Json κ σ} (h : NullFree value) (hcanonical : Canonical value) :
    applyPatch .null value = value := by
  induction h with
  | null => rfl
  | scalar leaf => rfl
  | array items => rfl
  | @object members hne hmembers ih =>
    cases hcanonical with
    | object hsorted hcanonical =>
      have hput : applyMembers [] members = members := by
        refine eq_of_lookup (sorted_applyMembers .nil) hsorted fun key => ?_
        rw [lookup_applyMembers .nil hsorted]
        cases hlookup : lookup members key with
        | none => rfl
        | some value =>
          have hmem := mem_of_lookup hlookup
          have hnull : value.isNull ≠ true := fun h => hne _ hmem (isNull_iff.mp h)
          have hvalue : applyPatch .null value = value := ih _ hmem (hcanonical _ hmem)
          simpa [hnull] using hvalue
      exact congrArg object hput

variable [DecidableEq σ]

theorem createPatch_eq_none_iff {previous current : Json κ σ} :
    createPatch previous current = none ↔ previous = current := by
  cases current <;> simp [createPatch]

theorem createPatch_ne_null {previous current patch : Json κ σ} (hcurrent : current ≠ .null)
    (h : createPatch previous current = some patch) : patch ≠ .null := by
  cases current with
  | object members =>
    rw [createPatch_object] at h
    split_ifs at h
    cases h
    simp
  | null => exact absurd rfl hcurrent
  | _ => simp [eq_of_createPatch (by simp) h]

/-- For the members of an object, if it holds for the values. -/
theorem applyMembers_patchMembers (hprevious : Canonical (.object previous))
    (hcurrent : Canonical (.object current)) (hfree : NullFree (.object current))
    (hvalues : ∀ member ∈ current, ∀ previous patch : Json κ σ, Canonical previous →
      createPatch previous member.2 = some patch → applyPatch previous patch = member.2) :
    applyMembers previous (patchMembers previous current (removals previous current)) = current := by
  have hpatch : Sorted (patchMembers previous current (removals previous current)) :=
    sorted_patchMembers sorted_removals
  refine eq_of_lookup (sorted_applyMembers hprevious.sorted) hcurrent.sorted fun key => ?_
  rw [lookup_applyMembers hprevious.sorted hpatch,
    lookup_patchMembers sorted_removals hcurrent.sorted, lookup_removals]
  cases hfree with
  | object hne hfree =>
    cases hlookup : lookup current key with
    | none =>
      cases hold : lookup previous key with
      | none => simp
      | some previousValue => simp [isNull]
    | some value =>
      have hmem := mem_of_lookup hlookup
      have hnull : value.isNull ≠ true := fun h => hne _ hmem (isNull_iff.mp h)
      cases hold : lookup previous key with
      | none =>
        have hput := applyPatch_null (hfree _ hmem) (hcurrent.of_lookup hlookup)
        simpa [hnull] using hput
      | some previousValue =>
        cases hcreate : createPatch previousValue value with
        | none =>
          obtain rfl := createPatch_eq_none_iff.mp hcreate
          simp [hcreate]
        | some valuePatch =>
          have hpatchNull : valuePatch.isNull ≠ true := fun h =>
            createPatch_ne_null (hne _ hmem) hcreate (isNull_iff.mp h)
          have hvalue := hvalues _ hmem _ _ (hprevious.of_lookup hold) hcreate
          simpa [hcreate, hpatchNull] using hvalue

theorem applyPatch_createPatch {previous current patch : Json κ σ} (hfree : NullFree current)
    (hprevious : Canonical previous) (hcurrent : Canonical current)
    (h : createPatch previous current = some patch) : applyPatch previous patch = current := by
  induction hfree generalizing previous patch with
  | null | scalar leaf | array items => rw [eq_of_createPatch (by simp) h]; rfl
  | @object members hne hmembers ih =>
    rw [createPatch_object] at h
    split_ifs at h
    cases h
    refine congrArg object (applyMembers_patchMembers (canonical_members hprevious) hcurrent
      (.object hne hmembers) fun member hmember previous patch hold hcreate => ?_)
    cases hcurrent with
    | object _ hcanonical => exact ih member hmember hold (hcanonical member hmember) hcreate

/-- The patch between two objects is empty if they are equal, and only then. -/
theorem patchMembers_eq_nil_iff (hprevious : Sorted previous) (hcurrent : Sorted current) :
    patchMembers previous current (removals previous current) = [] ↔ previous = current := by
  have hpatch : Sorted (patchMembers previous current (removals previous current)) :=
    sorted_patchMembers sorted_removals
  have hlookup : ∀ key, lookup (patchMembers previous current (removals previous current)) key = _ :=
    fun key => lookup_patchMembers sorted_removals hcurrent key
  constructor
  · intro hnil
    refine eq_of_lookup hprevious hcurrent fun key => ?_
    have hkey := hlookup key
    rw [hnil, lookup_removals] at hkey
    cases hnew : lookup current key with
    | none =>
      cases hold : lookup previous key with
      | none => rfl
      | some previousValue => simp [hnew, hold] at hkey
    | some value =>
      cases hold : lookup previous key with
      | none => simp [hnew, hold] at hkey
      | some previousValue =>
        have hcreate : none = createPatch previousValue value := by
          simpa [hnew, hold] using hkey
        rw [createPatch_eq_none_iff.mp hcreate.symm]
  · rintro rfl
    refine eq_of_lookup hpatch .nil fun key => ?_
    rw [hlookup, lookup_removals]
    cases lookup previous key with
    | none => rfl
    | some value => simp [createPatch_eq_none_iff.mpr rfl]

end Advance

/-! ## Trees without `null` members -/

omit [LinearOrder κ] in
theorem removeNulls_eq (members : List (κ × Json κ σ)) :
    removeNulls members = (members.filter fun member => !member.2.isNull).map fun member =>
        (member.1, removeNullMembers member.2) := by
  induction members with
  | nil => rfl
  | cons member rest ih =>
    obtain ⟨key, value⟩ := member
    rw [removeNulls, ih]
    by_cases hnull : value.isNull = true
    · simp [hnull]
    · simp [hnull]

omit [LinearOrder κ] in
theorem removeNullMembers_ne_null {value : Json κ σ} (h : value ≠ .null) :
    removeNullMembers value ≠ .null := by
  cases value with
  | null => exact absurd rfl h
  | _ => simp [removeNullMembers]

theorem canonical_removeNullMembers {value : Json κ σ} (h : Canonical value) :
    Canonical (removeNullMembers value) ∧ NullFree (removeNullMembers value) := by
  induction h with
  | null => exact ⟨.null, .null⟩
  | scalar leaf => exact ⟨.scalar leaf, .scalar leaf⟩
  | array hitems => exact ⟨.array hitems, .array _⟩
  | @object members hsorted hmembers ih =>
    rw [removeNullMembers, removeNulls_eq]
    have hmem : ∀ member ∈ (members.filter fun member => !member.2.isNull).map fun member =>
          (member.1, removeNullMembers member.2),
        Canonical member.2 ∧ NullFree member.2 ∧ member.2 ≠ .null := by
      intro member hmember
      obtain ⟨old, hold, rfl⟩ := mem_map.mp hmember
      obtain ⟨hold, hnull⟩ := mem_filter.mp hold
      refine ⟨(ih _ hold).1, (ih _ hold).2, removeNullMembers_ne_null fun heq => ?_⟩
      simp [isNull_iff.mpr heq] at hnull
    refine ⟨.object ?_ ?_, .object ?_ ?_⟩
    · exact (hsorted.filter _).map _ fun _ _ hlt => hlt
    · exact fun member hmember => (hmem member hmember).1
    · exact fun member hmember => (hmem member hmember).2.2
    · exact fun member hmember => (hmem member hmember).2.1

end Json

end Codex
