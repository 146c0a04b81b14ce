import Mingo.Config.Yaml
import Mingo.Log.Basic

/-!
# Which variables a configuration file reaches

`Config::LoadFromYaml` of config.cpp lists all nodes of a document, each with the
name that its keys form, and calls `fromString` of the variables of these names.
`ListAllMember` gives up a whole subtree at a name with a character that is not
in its alphabet.  Capital letters are not, though the names are changed to small
letters afterwards.

* `listAllMember_eq` -- what the recursion lists, as a filter of all nodes;
* `loadFromYaml_iff` -- the documents of which all variables are reached.

The calls are recorded with the keys that lead to their node.
-/

namespace Mingo

namespace Config

open Yaml (Node)

/-- The characters that a name may have. -/
def nameAlphabet : List UInt8 := ascii "abcdefghijklmnopqrstuvwxyz._012345678"

/-- `find_first_not_of` finds nothing. -/
def validName (name : List UInt8) : Bool := name.all nameAlphabet.contains

/-- `::tolower`. -/
def tolower (b : UInt8) : UInt8 := if 65 ≤ b ∧ b ≤ 90 then b + 32 else b

def lower (s : List UInt8) : List UInt8 := s.map tolower

/-- The names in `get_datas()`. -/
structure Registry where
  names : List (List UInt8)
  valid : ∀ name ∈ names, validName name = true

/-- `Lookup(name, value, description)`: a new name is checked, and `invalid_argument` thrown. -/
def Registry.lookup (r : Registry) (name : List UInt8) : Option Registry :=
  if name ∈ r.names then some r
  else if h : validName name = true then
    some ⟨name :: r.names, List.forall_mem_cons.mpr ⟨h, r.valid⟩⟩
  else none

/-- An element of the list `output`, and the keys that lead to it. -/
structure Member where
  path : List (List UInt8)
  name : List UInt8
  node : Node

/-- The name of a child. -/
def childName (pfx key : List UInt8) : List UInt8 := if pfx = [] then key else pfx ++ 46 :: key

mutual

/-- `ListAllMember`. -/
def listAllMember (path : List (List UInt8)) (pfx : List UInt8) : Node → List Member
  | .map entries =>
      if !validName pfx then []
      else ⟨path, pfx, .map entries⟩ :: listEntries path pfx entries
  | node => if !validName pfx then [] else [⟨path, pfx, node⟩]

/-- Its loop over the entries of a map. -/
def listEntries (path : List (List UInt8)) (pfx : List UInt8) : List (Node × Node) → List Member
  | [] => []
  | (key, value) :: rest =>
      listAllMember (path ++ [key.scalarText]) (childName pfx key.scalarText) value ++
        listEntries path pfx rest

end

/-- A call of `fromString`: the node that it is for, the variable and the argument. -/
structure Call where
  path : List (List UInt8)
  var : List UInt8
  val : List UInt8
  deriving DecidableEq, Repr

/-- The argument; `emit` is `operator<<` of yaml-cpp. -/
def nodeText (emit : Node → List UInt8) (node : Node) : List UInt8 :=
  if node.isScalar then node.scalarText else emit node

/-- `LoadFromYaml`. -/
def loadFromYaml (emit : Node → List UInt8) (r : Registry) (root : Node) : List Call :=
  (listAllMember [] [] root).filterMap fun m =>
    if m.name = [] then none
    else
      let key := lower m.name
      if key ∈ r.names then some ⟨m.path, key, nodeText emit m.node⟩ else none

/-! ### The specification -/

mutual

/-- All nodes in pre-order, with the keys that lead to them. -/
def paths (path : List (List UInt8)) : Node → List (List (List UInt8) × Node)
  | .map entries => (path, .map entries) :: pathsEntries path entries
  | node => [(path, node)]

def pathsEntries (path : List (List UInt8)) : List (Node × Node) → List (List (List UInt8) × Node)
  | [] => []
  | (key, value) :: rest => paths (path ++ [key.scalarText]) value ++ pathsEntries path rest

end

/-- The keys with dots between them. -/
def joined (path : List (List UInt8)) : List UInt8 := [46].intercalate path

/-- The call that a node should get. -/
def dueCall (emit : Node → List UInt8) (r : Registry) (p : List (List UInt8) × Node) :
    Option Call :=
  if lower (joined p.1) ∈ r.names then some ⟨p.1, lower (joined p.1), nodeText emit p.2⟩ else none

/-- `fromString` is called once for each node whose keys name a variable, in pre-order, and not
otherwise. -/
def ReachesAll (emit : Node → List UInt8) (r : Registry) (root : Node) : Prop :=
  loadFromYaml emit r root = (paths [] root).filterMap (dueCall emit r)

/-- The keys behind those that are empty. -/
def strip (path : List (List UInt8)) : List (List UInt8) := path.dropWhile List.isEmpty

/-- Keys that name a variable are there, do not begin with an empty one, and have no capital
letter; and where they begin with empty ones, those behind name no variable. -/
structure Spelt (r : Registry) (path : List (List UInt8)) : Prop where
  named : lower (joined path) ∈ r.names →
    path ≠ [] ∧ path.head? ≠ some [] ∧ ∀ key ∈ path, lower key = key
  stripped : path.head? = some [] → joined (strip path) ≠ [] → joined (strip path) ∉ r.names

/-! ### Names -/

theorem joined_nil : joined [] = [] := rfl

theorem joined_cons (key : List UInt8) {rest : List (List UInt8)} (h : rest ≠ []) :
    joined (key :: rest) = key ++ 46 :: joined rest := by
  rw [joined, List.intercalate_cons_of_ne_nil h, List.append_assoc]
  rfl

theorem joined_snoc {path : List (List UInt8)} (h : path ≠ []) (key : List UInt8) :
    joined (path ++ [key]) = joined path ++ 46 :: key := by
  induction path with
  | nil => exact absurd rfl h
  | cons k rest ih =>
      by_cases hrest : rest = []
      · subst hrest
        exact (joined_cons k (List.cons_ne_nil key [])).trans (by simp [joined])
      · rw [List.cons_append, joined_cons k (List.append_ne_nil_of_left_ne_nil hrest _), ih hrest,
          joined_cons k hrest, List.append_assoc]
        rfl

/-- The name that `ListAllMember` gives a node: empty keys leave no dot at the front. -/
def nameOf (path : List (List UInt8)) : List UInt8 := joined (strip path)

theorem strip_cons_nil (path : List (List UInt8)) : strip ([] :: path) = strip path := rfl

theorem strip_cons {key : List UInt8} (hkey : key ≠ []) (path : List (List UInt8)) :
    strip (key :: path) = key :: path := by
  rw [strip, List.dropWhile_cons_of_neg]
  simpa using hkey

/-- What is left behind empty keys is nothing, or begins with a key. -/
theorem strip_cases (path : List (List UInt8)) :
    strip path = [] ∨ ∃ key rest, key ≠ [] ∧ strip path = key :: rest := by
  induction path with
  | nil => exact Or.inl rfl
  | cons key path ih =>
      by_cases hkey : key = []
      · rw [hkey, strip_cons_nil]
        exact ih
      · exact Or.inr ⟨key, path, hkey, strip_cons hkey path⟩

theorem strip_snoc (path : List (List UInt8)) (key : List UInt8) :
    strip (path ++ [key]) = if strip path = [] then strip [key] else strip path ++ [key] := by
  induction path with
  | nil => rfl
  | cons k path ih =>
      by_cases hk : k = []
      · rw [hk, List.cons_append, strip_cons_nil, strip_cons_nil, ih]
      · rw [List.cons_append, strip_cons hk, strip_cons hk, if_neg (List.cons_ne_nil _ _)]
        rfl

theorem joined_ne_nil {key : List UInt8} (hkey : key ≠ []) (rest : List (List UInt8)) :
    joined (key :: rest) ≠ [] := by
  by_cases hrest : rest = []
  · rw [hrest]
    simpa [joined] using hkey
  · rw [joined_cons key hrest]
    simp

theorem nameOf_eq_nil_iff (path : List (List UInt8)) : nameOf path = [] ↔ strip path = [] := by
  rw [nameOf]
  rcases strip_cases path with hnil | ⟨key, rest, hkey, hcons⟩
  · rw [hnil]
    exact iff_of_true rfl rfl
  · rw [hcons]
    exact iff_of_false (joined_ne_nil hkey rest) (List.cons_ne_nil key rest)

/-- **The name of a child**, as the recursion forms it. -/
theorem childName_nameOf (path : List (List UInt8)) (key : List UInt8) :
    childName (nameOf path) key = nameOf (path ++ [key]) := by
  rw [childName]
  simp only [nameOf_eq_nil_iff]
  by_cases hstrip : strip path = []
  · rw [if_pos hstrip, nameOf, strip_snoc, if_pos hstrip]
    by_cases hkey : key = []
    · rw [hkey]
      rfl
    · rw [strip_cons hkey]
      simp [joined]
  · rw [if_neg hstrip, nameOf, nameOf, strip_snoc, if_neg hstrip, joined_snoc hstrip]

/-! ### The recursion -/

theorem validName_append (a b : List UInt8) :
    validName (a ++ b) = true ↔ validName a = true ∧ validName b = true := by
  rw [validName, List.all_append, Bool.and_eq_true]
  rfl

/-- A name is valid only if that of the parent is. -/
theorem validName_parent {path : List (List UInt8)} {key : List UInt8}
    (h : validName (nameOf (path ++ [key])) = true) : validName (nameOf path) = true := by
  rw [← childName_nameOf, childName] at h
  split at h
  · next hnil =>
      rw [hnil]
      rfl
  · exact ((validName_append _ _).mp h).1

/-- The nodes that are listed: those of a valid name. -/
def listed (ps : List (List (List UInt8) × Node)) : List Member :=
  (ps.filter fun p => validName (nameOf p.1)).map fun p => ⟨p.1, nameOf p.1, p.2⟩

theorem listed_append (ps qs : List (List (List UInt8) × Node)) :
    listed (ps ++ qs) = listed ps ++ listed qs := by
  rw [listed, List.filter_append, List.map_append]
  rfl

theorem listed_cons {path : List (List UInt8)} (h : validName (nameOf path) = true) (node : Node)
    (ps : List (List (List UInt8) × Node)) :
    listed ((path, node) :: ps) = ⟨path, nameOf path, node⟩ :: listed ps := by
  simp [listed, h]

mutual

/-- Below an invalid name there are only invalid names. -/
theorem listed_of_invalid (path : List (List UInt8)) (h : validName (nameOf path) = false)
    (node : Node) : listed (paths path node) = [] := by
  cases node with
  | map entries =>
      have hrest := listedEntries_of_invalid path h entries
      rw [paths, listed, List.filter_cons_of_neg (by simp [h])]
      exact hrest
  | undefined => simp [paths, listed, h]
  | null => simp [paths, listed, h]
  | scalar text => simp [paths, listed, h]
  | sequence items => simp [paths, listed, h]

theorem listedEntries_of_invalid (path : List (List UInt8)) (h : validName (nameOf path) = false)
    (entries : List (Node × Node)) : listed (pathsEntries path entries) = [] := by
  cases entries with
  | nil => rfl
  | cons entry rest =>
      obtain ⟨key, value⟩ := entry
      have hchild : validName (nameOf (path ++ [key.scalarText])) = false := by
        rw [← Bool.not_eq_true] at h ⊢
        exact fun hvalid => h (validName_parent hvalid)
      rw [pathsEntries, listed_append, listed_of_invalid _ hchild value,
        listedEntries_of_invalid path h rest]
      rfl

end

mutual

/-- **`ListAllMember`** lists the nodes of a valid name: by induction on the tree. -/
theorem listAllMember_eq (path : List (List UInt8)) (node : Node) :
    listAllMember path (nameOf path) node = listed (paths path node) := by
  by_cases hvalid : validName (nameOf path) = true
  · cases node with
    | map entries =>
        have hrest := listEntries_eq path hvalid entries
        rw [listAllMember, hvalid, Bool.not_true, if_neg Bool.false_ne_true, hrest, paths,
          listed_cons hvalid]
    | undefined => simp [listAllMember, paths, listed, hvalid]
    | null => simp [listAllMember, paths, listed, hvalid]
    | scalar text => simp [listAllMember, paths, listed, hvalid]
    | sequence items => simp [listAllMember, paths, listed, hvalid]
  · rw [Bool.not_eq_true] at hvalid
    rw [listed_of_invalid path hvalid node]
    cases node <;> simp [listAllMember, hvalid]

theorem listEntries_eq (path : List (List UInt8)) (hvalid : validName (nameOf path) = true)
    (entries : List (Node × Node)) :
    listEntries path (nameOf path) entries = listed (pathsEntries path entries) := by
  cases entries with
  | nil => rfl
  | cons entry rest =>
      obtain ⟨key, value⟩ := entry
      rw [listEntries, pathsEntries, listed_append, childName_nameOf,
        listAllMember_eq (path ++ [key.scalarText]) value, listEntries_eq path hvalid rest]

end

/-! ### Calls -/

theorem tolower_of_mem {b : UInt8} (h : b ∈ nameAlphabet) : tolower b = b := by
  have hall : (nameAlphabet.all fun b => tolower b == b) = true := by decide +kernel
  exact eq_of_beq (List.all_eq_true.mp hall b h)

/-- A valid name has no capital letter. -/
theorem lower_of_valid {name : List UInt8} (h : validName name = true) : lower name = name := by
  refine (List.map_congr_left fun b hb => ?_).trans (List.map_id _)
  exact tolower_of_mem (List.contains_iff_mem.mp (List.all_eq_true.mp h b hb))

theorem lower_append (a b : List UInt8) : lower (a ++ b) = lower a ++ lower b := List.map_append

theorem length_lower (a : List UInt8) : (lower a).length = a.length := List.length_map _

/-- The keys of a name without capital letters have none. -/
theorem lower_joined {path : List (List UInt8)} :
    lower (joined path) = joined path ↔ ∀ key ∈ path, lower key = key := by
  induction path with
  | nil => simp [joined, lower]
  | cons key rest ih =>
      by_cases hrest : rest = []
      · simp [hrest, joined]
      · have hdot : lower (46 :: joined rest) = 46 :: lower (joined rest) := rfl
        rw [joined_cons key hrest, lower_append, hdot, List.forall_mem_cons, ← ih]
        constructor
        · intro h
          obtain ⟨hkey, htail⟩ := List.append_inj h (length_lower key)
          exact ⟨hkey, (List.cons.inj htail).2⟩
        · rintro ⟨hkey, htail⟩
          rw [hkey, htail]

variable (emit : Node → List UInt8) (r : Registry)

/-- The call that a node gets. -/
def madeCall (p : List (List UInt8) × Node) : Option Call :=
  if nameOf p.1 ≠ [] ∧ nameOf p.1 ∈ r.names then some ⟨p.1, nameOf p.1, nodeText emit p.2⟩
  else none

/-- **`LoadFromYaml`**, node by node. -/
theorem loadFromYaml_eq (root : Node) :
    loadFromYaml emit r root = (paths [] root).filterMap (madeCall emit r) := by
  have hlist : listAllMember [] [] root = listed (paths [] root) := listAllMember_eq [] root
  rw [loadFromYaml, hlist, listed, List.filterMap_map, List.filterMap_filter]
  refine List.filterMap_congr fun p _ => ?_
  by_cases hvalid : validName (nameOf p.1) = true
  · rw [if_pos hvalid, Function.comp_apply, madeCall, lower_of_valid hvalid]
    by_cases hnil : nameOf p.1 = []
    · simp [hnil]
    · simp [hnil]
  · have hnot : ¬ (nameOf p.1 ≠ [] ∧ nameOf p.1 ∈ r.names) := fun h => hvalid (r.valid _ h.2)
    rw [if_neg hvalid, madeCall, if_neg hnot]

/-- Empty keys make a name longer. -/
theorem length_nameOf_le (path : List (List UInt8)) :
    (nameOf path).length ≤ (joined path).length := by
  induction path with
  | nil => exact Nat.le_refl _
  | cons key rest ih =>
      by_cases hkey : key = []
      · rw [nameOf, hkey, strip_cons_nil]
        by_cases hrest : rest = []
        · subst hrest
          exact Nat.le_refl _
        · rw [joined_cons [] hrest, List.nil_append, List.length_cons]
          exact Nat.le_succ_of_le ih
      · have hsame : nameOf (key :: rest) = joined (key :: rest) := by rw [nameOf, strip_cons hkey]
        exact Nat.le_of_eq (congrArg List.length hsame)

/-- The name of a node that begins with an empty key is not that of its keys. -/
theorem nameOf_ne {path : List (List UInt8)} (hhead : path.head? = some [])
    (hname : nameOf path ≠ []) : nameOf path ≠ lower (joined path) := by
  cases path with
  | nil => cases hhead
  | cons key rest =>
      obtain rfl : key = [] := Option.some.inj hhead
      have hrest : rest ≠ [] := by
        rintro rfl
        exact hname rfl
      intro heq
      have hlength := congrArg List.length heq
      have hle := length_nameOf_le rest
      have hstrip : nameOf ([] :: rest) = nameOf rest := rfl
      rw [length_lower, joined_cons [] hrest, List.nil_append, List.length_cons, hstrip] at hlength
      omega

/-- Both calls are made or none is, and for the same variable. -/
theorem madeCall_eq_dueCall_iff (p : List (List UInt8) × Node) :
    madeCall emit r p = dueCall emit r p ↔
      ((nameOf p.1 ≠ [] ∧ nameOf p.1 ∈ r.names) ↔ lower (joined p.1) ∈ r.names) ∧
        (nameOf p.1 ∈ r.names → nameOf p.1 ≠ [] → nameOf p.1 = lower (joined p.1)) := by
  rw [madeCall, dueCall]
  by_cases hmade : nameOf p.1 ≠ [] ∧ nameOf p.1 ∈ r.names
  · by_cases hdue : lower (joined p.1) ∈ r.names
    · simp [hmade, hdue]
    · simp [hmade, hdue]
  · by_cases hdue : lower (joined p.1) ∈ r.names
    · simp [hmade, hdue]
    · rw [if_neg hmade, if_neg hdue]
      simp only [hmade, hdue, true_and, true_iff]
      exact fun hname hne => absurd ⟨hne, hname⟩ hmade

/-- **A node gets the call that it should**, if its keys are spelt as the variable. -/
theorem madeCall_eq_iff (p : List (List UInt8) × Node) :
    madeCall emit r p = dueCall emit r p ↔ Spelt r p.1 := by
  obtain ⟨path, node⟩ := p
  rw [madeCall_eq_dueCall_iff]
  by_cases hhead : path.head? = some []
  · constructor
    · rintro ⟨hiff, hsame⟩
      have hmade : nameOf path ≠ [] → nameOf path ∉ r.names :=
        fun hne hname => nameOf_ne hhead hne (hsame hname hne)
      refine ⟨?_, fun _ => hmade⟩
      intro hdue
      obtain ⟨hne, hname⟩ := hiff.mpr hdue
      exact absurd hname (hmade hne)
    · rintro ⟨hnamed, hstripped⟩
      have hmade := hstripped hhead
      refine ⟨⟨fun h => absurd h.2 (hmade h.1), ?_⟩, fun hname hne => absurd hname (hmade hne)⟩
      intro hdue
      exact absurd hhead (hnamed hdue).2.1
  · cases path with
    | nil =>
        constructor
        · rintro ⟨hiff, -⟩
          refine ⟨?_, fun h => absurd h nofun⟩
          intro hdue
          exact absurd rfl (hiff.mpr hdue).1
        · rintro ⟨hnamed, -⟩
          refine ⟨⟨fun h => absurd rfl h.1, ?_⟩, fun _ hne => absurd rfl hne⟩
          intro hdue
          exact absurd rfl (hnamed hdue).1
    | cons key rest =>
        have hkey : key ≠ [] := by
          rintro rfl
          exact hhead rfl
        have hname : nameOf (key :: rest) = joined (key :: rest) := by
          rw [nameOf, strip_cons hkey]
        have hne := joined_ne_nil hkey rest
        have hlower : joined (key :: rest) ∈ r.names →
            lower (joined (key :: rest)) = joined (key :: rest) :=
          fun h => lower_of_valid (r.valid _ h)
        dsimp only
        rw [hname]
        constructor
        · rintro ⟨hiff, -⟩
          refine ⟨?_, fun h => absurd h hhead⟩
          intro hdue
          exact ⟨List.cons_ne_nil key rest, hhead,
            lower_joined.mp (hlower (hiff.mpr hdue).2)⟩
        · rintro ⟨hnamed, -⟩
          refine ⟨⟨fun h => (hlower h.2).symm ▸ h.2, ?_⟩, fun h _ => (hlower h).symm⟩
          intro hdue
          have hsame := lower_joined.mpr (hnamed hdue).2.2
          exact ⟨hne, hsame ▸ hdue⟩

theorem madeCall_eq_some {emit : Node → List UInt8} {r : Registry}
    {p : List (List UInt8) × Node} {c : Call} :
    madeCall emit r p = some c ↔ (nameOf p.1 ≠ [] ∧ nameOf p.1 ∈ r.names) ∧
      c = ⟨p.1, nameOf p.1, nodeText emit p.2⟩ := by
  rw [madeCall, Option.ite_none_right_eq_some, Option.some.injEq, eq_comm (b := c)]

theorem dueCall_eq_some {emit : Node → List UInt8} {r : Registry}
    {p : List (List UInt8) × Node} {c : Call} :
    dueCall emit r p = some c ↔ lower (joined p.1) ∈ r.names ∧
      c = ⟨p.1, lower (joined p.1), nodeText emit p.2⟩ := by
  rw [dueCall, Option.ite_none_right_eq_some, Option.some.injEq, eq_comm (b := c)]

/-- **`LoadFromYaml` reaches the right variables** in the documents that spell them as they are
registered. -/
theorem loadFromYaml_iff (root : Node) :
    ReachesAll emit r root ↔ ∀ p ∈ paths [] root, Spelt r p.1 := by
  rw [ReachesAll, loadFromYaml_eq]
  constructor
  · intro heq p hp
    rw [← madeCall_eq_iff emit]
    have hmade : ∀ c, madeCall emit r p = some c → dueCall emit r p = some c := by
      intro c hc
      have hmem := List.mem_filterMap.mpr ⟨p, hp, hc⟩
      rw [heq] at hmem
      obtain ⟨q, -, hq⟩ := List.mem_filterMap.mp hmem
      obtain ⟨-, rfl⟩ := madeCall_eq_some.mp hc
      obtain ⟨hdue, hcall⟩ := dueCall_eq_some.mp hq
      obtain ⟨hpath, hvar, -⟩ := Call.mk.inj hcall
      rw [← hpath] at hdue hvar
      exact dueCall_eq_some.mpr ⟨hdue, by rw [hvar]⟩
    have hdue : ∀ c, dueCall emit r p = some c → madeCall emit r p = some c := by
      intro c hc
      have hmem := List.mem_filterMap.mpr ⟨p, hp, hc⟩
      rw [← heq] at hmem
      obtain ⟨q, -, hq⟩ := List.mem_filterMap.mp hmem
      obtain ⟨-, rfl⟩ := dueCall_eq_some.mp hc
      obtain ⟨hmade, hcall⟩ := madeCall_eq_some.mp hq
      obtain ⟨hpath, hvar, -⟩ := Call.mk.inj hcall
      rw [← hpath] at hmade hvar
      exact madeCall_eq_some.mpr ⟨hmade, by rw [hvar]⟩
    exact Option.ext fun c => ⟨hmade c, hdue c⟩
  · intro hspelt
    exact List.filterMap_congr fun p hp => (madeCall_eq_iff emit r p).mpr (hspelt p hp)

/-- The variable `log.level`. -/
def levelRegistry : Registry := ⟨[ascii "log.level"], by decide +kernel⟩

/-- A document with the keys `Log` and `level`. -/
def capitalDocument : Node :=
  .map [(.scalar (ascii "Log"), .map [(.scalar (ascii "level"), .scalar (ascii "debug"))])]

/-- **A capital letter**: `Log.level` is a spelling of `log.level`, but no variable is set. -/
theorem not_reachesAll_capital :
    loadFromYaml (fun _ => []) levelRegistry capitalDocument = [] ∧
      ¬ ReachesAll (fun _ => []) levelRegistry capitalDocument := by
  have hnone : loadFromYaml (fun _ => []) levelRegistry capitalDocument = [] := by decide +kernel
  have hdue : (paths [] capitalDocument).filterMap (dueCall (fun _ => []) levelRegistry) =
      [⟨[ascii "Log", ascii "level"], ascii "log.level", ascii "debug"⟩] := by decide +kernel
  refine ⟨hnone, ?_⟩
  rw [ReachesAll, hnone, hdue]
  exact nofun

end Config

end Mingo
