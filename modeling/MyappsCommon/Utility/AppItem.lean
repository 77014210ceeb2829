import Mathlib.Tactic.Common
import Mathlib.Data.List.TakeWhile

/-! # Application items: states and their names

The names of the states are recognised twice, by sets of strings and by comparisons that
ignore the case of the letters.
-/

namespace MyappsCommon.Utility

/-- A value of the `enum` is any 8-bit number. -/
structure AppItemStateE where
  value : UInt8
  deriving DecidableEq, Repr

namespace AppItemStateE

def invalid : AppItemStateE := ⟨0⟩
def deleting : AppItemStateE := ⟨1⟩
def trash : AppItemStateE := ⟨2⟩
def privateAlpha : AppItemStateE := ⟨3⟩
def reviewRequest : AppItemStateE := ⟨4⟩
def reviewStarted : AppItemStateE := ⟨5⟩
def reviewAccepted : AppItemStateE := ⟨6⟩
def reviewRejected : AppItemStateE := ⟨7⟩
def publicAlpha : AppItemStateE := ⟨8⟩
def publicBeta : AppItemStateE := ⟨9⟩
def publicRelease : AppItemStateE := ⟨10⟩
def stateCount : AppItemStateE := ⟨11⟩

end AppItemStateE

/-! ## Names -/

/-- The bytes of a string literal. -/
def literal (text : String) : List UInt8 := text.toList.map fun c => UInt8.ofNat c.toNat

def appItemPrivateAlpha : List UInt8 := literal "private_alpha"
def appItemPublicAlpha : List UInt8 := literal "public_alpha"
def appItemPublicBeta : List UInt8 := literal "public_beta"
def appItemPublicRelease : List UInt8 := literal "public_release"
def appItemInvalid : List UInt8 := literal "none"
def appItemTrash : List UInt8 := literal "trash"
def appItemDeleting : List UInt8 := literal "deleting"

def appItemIsDefaultPublicName (name : List UInt8) : Bool :=
  [appItemPublicAlpha, appItemPublicBeta, appItemPublicRelease].contains name

def appItemIsDefaultName (name : List UInt8) : Bool :=
  appItemIsDefaultPublicName name ||
    [appItemPrivateAlpha, appItemInvalid, appItemTrash].contains name

def appItemStateName (state : AppItemStateE) : List UInt8 :=
  if state = .invalid then appItemInvalid
  else if state = .deleting then appItemDeleting
  else if state = .trash then appItemTrash
  else if state = .privateAlpha then appItemPrivateAlpha
  else if state = .reviewRequest then literal "review_request"
  else if state = .reviewStarted then literal "review_started"
  else if state = .reviewAccepted then literal "review_accepted"
  else if state = .reviewRejected then literal "review_rejected"
  else if state = .publicAlpha then appItemPublicAlpha
  else if state = .publicBeta then appItemPublicBeta
  else if state = .publicRelease then appItemPublicRelease
  else []

/-- The states that `app_item_state_from_name` tries, in this order. -/
def namedStates : List AppItemStateE :=
  [.invalid, .deleting, .trash, .privateAlpha, .reviewRequest, .reviewStarted, .reviewAccepted,
    .reviewRejected, .publicAlpha, .publicBeta, .publicRelease]

/-- The state of the first name that compares equal.  The strings are given without their
terminating zero. -/
def appItemStateFromName (casecmp : List UInt8 → List UInt8 → Int) (name : List UInt8) :
    AppItemStateE :=
  (namedStates.find? fun state => casecmp name (appItemStateName state) == 0).getD .stateCount

/-- `c_str()`, read up to the first zero. -/
def cStr (text : List UInt8) : List UInt8 := text.takeWhile (· != 0)

/-! ## Comparison without regard to case -/

/-- `tolower` for ASCII. -/
def toLower (c : UInt8) : UInt8 := if 65 ≤ c ∧ c ≤ 90 then c + 32 else c

/-- `solid::cstring::casecmp` gives 0 for the strings that are equal but for the case of ASCII
letters. -/
def IgnoresCase (casecmp : List UInt8 → List UInt8 → Int) : Prop :=
  ∀ first second, 0 ∉ first → 0 ∉ second →
    (casecmp first second = 0 ↔ first.map toLower = second.map toLower)

theorem zero_notMem_cStr (text : List UInt8) : 0 ∉ cStr text := by
  intro member
  have passed := List.mem_takeWhile_imp member
  exact absurd passed (by decide)

theorem cStr_eq_self {text : List UInt8} (noZero : 0 ∉ text) : cStr text = text := by
  rw [cStr, List.takeWhile_eq_self_iff]
  intro c member
  exact bne_iff_ne.mpr fun isZero => noZero (isZero ▸ member)

/-- The names are C strings in small letters. -/
theorem stateName_plain : ∀ state ∈ namedStates,
    0 ∉ appItemStateName state ∧ (appItemStateName state).map toLower = appItemStateName state := by
  decide

theorem stateName_injective : ∀ first ∈ namedStates, ∀ second ∈ namedStates,
    appItemStateName first = appItemStateName second → first = second := by
  decide

/-- A search that at most one element of the list can end. -/
theorem find?_eq_some_iff_of_unique {α : Type} {list : List α} {test : α → Bool}
    (unique : ∀ first ∈ list, ∀ second ∈ list, test first = true → test second = true →
      first = second) {item : α} :
    list.find? test = some item ↔ item ∈ list ∧ test item = true := by
  constructor
  · intro found
    exact ⟨List.mem_of_find?_eq_some found, List.find?_some found⟩
  · rintro ⟨member, passes⟩
    cases found : list.find? test with
    | none => exact absurd passes (List.find?_eq_none.mp found item member)
    | some other =>
      rw [unique item member other (List.mem_of_find?_eq_some found) passes
        (List.find?_some found)]

section IgnoresCase

variable {casecmp : List UInt8 → List UInt8 → Int} (ignoresCase : IgnoresCase casecmp)
include ignoresCase

/-- A comparison with the name of a state. -/
theorem casecmp_stateName_iff (name : List UInt8) {state : AppItemStateE}
    (named : state ∈ namedStates) :
    (casecmp (cStr name) (appItemStateName state) == 0) = true ↔
      (cStr name).map toLower = appItemStateName state := by
  obtain ⟨noZero, small⟩ := stateName_plain state named
  rw [beq_iff_eq, ignoresCase _ _ (zero_notMem_cStr name) noZero, small]

/-- A named state is found exactly by the spellings of its name. -/
theorem stateFromName_eq_iff (name : List UInt8) {state : AppItemStateE}
    (named : state ∈ namedStates) :
    appItemStateFromName casecmp (cStr name) = state ↔
      (cStr name).map toLower = appItemStateName state := by
  have found : namedStates.find? (fun state => casecmp (cStr name) (appItemStateName state) == 0) =
      some state ↔ (cStr name).map toLower = appItemStateName state := by
    rw [find?_eq_some_iff_of_unique, casecmp_stateName_iff ignoresCase name named,
      and_iff_right named]
    intro first firstNamed second secondNamed firstEqual secondEqual
    rw [casecmp_stateName_iff ignoresCase name firstNamed] at firstEqual
    rw [casecmp_stateName_iff ignoresCase name secondNamed] at secondEqual
    exact stateName_injective first firstNamed second secondNamed
      (firstEqual.symm.trans secondEqual)
  rw [← found, appItemStateFromName]
  cases namedStates.find? fun state => casecmp (cStr name) (appItemStateName state) == 0 with
  | some other => simp
  | none =>
    -- `StateCount` has no name
    have unnamed : AppItemStateE.stateCount ∉ namedStates := by decide
    simp only [Option.getD_none, reduceCtorEq, iff_false]
    exact fun same => unnamed (same ▸ named)

theorem stateFromName_mem_iff (name : List UInt8) {states : List AppItemStateE}
    (named : ∀ state ∈ states, state ∈ namedStates) :
    appItemStateFromName casecmp (cStr name) ∈ states ↔
      (cStr name).map toLower ∈ states.map appItemStateName := by
  rw [List.mem_map]
  constructor
  · intro member
    exact ⟨_, member, ((stateFromName_eq_iff ignoresCase name (named _ member)).mp rfl).symm⟩
  · rintro ⟨state, member, spelled⟩
    rwa [(stateFromName_eq_iff ignoresCase name (named state member)).mpr spelled.symm]

end IgnoresCase

/-! ## The two classifiers -/

def publicStates : List AppItemStateE := [.publicAlpha, .publicBeta, .publicRelease]

def reservedStates : List AppItemStateE := [.privateAlpha, .invalid, .trash] ++ publicStates

/-- The sets of names and the comparisons take a name for the same. -/
structure ClassifiersAgree (casecmp : List UInt8 → List UInt8 → Int) (name : List UInt8) :
    Prop where
  default : appItemIsDefaultName name = true ↔
    appItemStateFromName casecmp (cStr name) ∈ reservedStates
  defaultPublic : appItemIsDefaultPublicName name = true ↔
    appItemStateFromName casecmp (cStr name) ∈ publicStates

def publicNames : List (List UInt8) := publicStates.map appItemStateName

def reservedNames : List (List UInt8) := reservedStates.map appItemStateName

theorem reservedStates_named : ∀ state ∈ reservedStates, state ∈ namedStates := by decide

theorem publicStates_named : ∀ state ∈ publicStates, state ∈ namedStates := by decide

theorem publicNames_reserved {name : List UInt8} (member : name ∈ publicNames) :
    name ∈ reservedNames := by
  rw [reservedNames, reservedStates, List.map_append]
  exact List.mem_append_right _ member

theorem isDefaultPublicName_iff (name : List UInt8) :
    appItemIsDefaultPublicName name = true ↔ name ∈ publicNames :=
  List.contains_iff_mem

theorem isDefaultName_iff (name : List UInt8) :
    appItemIsDefaultName name = true ↔ name ∈ reservedNames := by
  rw [reservedNames, reservedStates, List.map_append, List.mem_append, appItemIsDefaultName,
    Bool.or_eq_true, or_comm, isDefaultPublicName_iff, List.contains_iff_mem]
  rfl

/-- A reserved name is its own only spelling in small letters. -/
theorem spelling_of_reserved {name : List UInt8} (reserved : name ∈ reservedNames) :
    (cStr name).map toLower = name := by
  obtain ⟨state, member, rfl⟩ := List.mem_map.mp reserved
  obtain ⟨noZero, small⟩ := stateName_plain state (reservedStates_named state member)
  rw [cStr_eq_self noZero, small]

/-- The classifiers agree on a name exactly when it is not a spelling of a reserved name other
than that name itself. -/
theorem classifiersAgree_iff (casecmp : List UInt8 → List UInt8 → Int)
    (ignoresCase : IgnoresCase casecmp) (name : List UInt8) :
    ClassifiersAgree casecmp name ↔
      ((cStr name).map toLower ∈ reservedNames → name ∈ reservedNames) := by
  have reserved := stateFromName_mem_iff ignoresCase name reservedStates_named
  have publics := stateFromName_mem_iff ignoresCase name publicStates_named
  constructor
  · intro agree spelled
    exact (isDefaultName_iff name).mp (agree.default.mpr (reserved.mpr spelled))
  · intro spelledSo
    constructor
    case default =>
      rw [reserved, isDefaultName_iff]
      constructor
      · intro member
        rwa [← reservedNames, spelling_of_reserved member]
      · exact spelledSo
    case defaultPublic =>
      rw [publics, isDefaultPublicName_iff]
      constructor
      · intro member
        rwa [← publicNames, spelling_of_reserved (publicNames_reserved member)]
      · intro spelled
        have member := spelledSo (publicNames_reserved spelled)
        rwa [spelling_of_reserved member] at spelled

/-! ## A comparison -/

/-- The difference of the first two letters that differ. -/
def strcasecmp : List UInt8 → List UInt8 → Int
  | [], [] => 0
  | [], c :: _ => -(toLower c).toNat
  | c :: _, [] => (toLower c).toNat
  | c :: first, d :: second =>
    if toLower c = toLower d then strcasecmp first second
    else (toLower c).toNat - (toLower d).toNat

theorem toLower_toNat_pos {c : UInt8} (notZero : c ≠ 0) : 0 < (toLower c).toNat := by
  have pos : 0 < c.toNat := by
    rw [Nat.pos_iff_ne_zero]
    exact fun isZero => notZero (UInt8.toNat.inj isZero)
  unfold toLower
  split
  case isTrue capital =>
    have low := UInt8.le_iff_toNat_le.mp capital.1
    have high := UInt8.le_iff_toNat_le.mp capital.2
    rw [UInt8.toNat_add]
    simp only [UInt8.reduceToNat] at low high ⊢
    omega
  case isFalse => exact pos

theorem strcasecmp_ignoresCase : IgnoresCase strcasecmp := by
  intro first second noZero noZero'
  induction first, second using strcasecmp.induct with
  | case1 => simp [strcasecmp]
  | case2 c rest =>
    have pos := toLower_toNat_pos (List.ne_of_not_mem_cons noZero').symm
    simp [strcasecmp]
    omega
  | case3 c rest =>
    have pos := toLower_toNat_pos (List.ne_of_not_mem_cons noZero).symm
    simp [strcasecmp]
    omega
  | case4 c first d second same ih =>
    have rest := ih (List.not_mem_of_not_mem_cons noZero) (List.not_mem_of_not_mem_cons noZero')
    simp [strcasecmp, same, rest]
  | case5 c first d second differ =>
    have apart : (toLower c).toNat ≠ (toLower d).toNat :=
      fun same => differ (UInt8.toNat.inj same)
    simp [strcasecmp, differ]
    omega

theorem classifiersAgree_trash : ClassifiersAgree strcasecmp appItemTrash :=
  (classifiersAgree_iff strcasecmp strcasecmp_ignoresCase appItemTrash).mpr (fun _ => by decide)

/-- `TRASH` is the state `Trash` and no default name. -/
theorem capital_trash_disagrees :
    IgnoresCase strcasecmp ∧
      appItemStateFromName strcasecmp (cStr (literal "TRASH")) = .trash ∧
      appItemIsDefaultName (literal "TRASH") = false ∧
      ¬ ClassifiersAgree strcasecmp (literal "TRASH") := by
  refine ⟨strcasecmp_ignoresCase, by decide, by decide, fun agree => ?_⟩
  have taken := agree.default.mpr (by decide)
  exact absurd taken (by decide)

end MyappsCommon.Utility
