import MyappsCommon.Lib.BinaryArchive

/-! # Archives that are loaded as they were saved

What is loaded from an archive, from wherever its bytes come, is what saving the loaded value
writes.  `Rewrites` says it of a loading run and the saving run for its value, and composes
along a sequence.
-/

namespace MyappsCommon.Lib.BinaryArchive

variable {κ α β : Type}

/-! ## Numbers -/

theorem leBytes_ofLeBytes {width : Nat} {bytes : List UInt8} (sized : bytes.length = width) :
    leBytes width (ofLeBytes bytes) = bytes := by
  subst sized
  induction bytes with
  | nil => rfl
  | cons byte bytes ih =>
    have small := byte.toNat_lt
    have low : UInt8.ofNat (ofLeBytes (byte :: bytes)) = byte := by
      rw [ofLeBytes, ← UInt8.toNat_inj, UInt8.toNat_ofNat']
      omega
    have high : ofLeBytes (byte :: bytes) / 256 = ofLeBytes bytes := by
      rw [ofLeBytes]
      omega
    rw [List.length_cons, leBytes, low, high, ih]

theorem ofLeBytes_lt (bytes : List UInt8) : ofLeBytes bytes < 256 ^ bytes.length := by
  induction bytes with
  | nil => exact Nat.one_pos
  | cons byte bytes ih =>
    have small := byte.toNat_lt
    rw [ofLeBytes, List.length_cons, Nat.pow_succ]
    omega

theorem gives_loadBinary_iff {count : Nat} {store final : Store κ}
    {loaded : {bytes : List UInt8 // bytes.length = count}} :
    Traced.Gives (loadBinary count) store loaded final ↔
      store.bytes = loaded.1 ++ final.bytes ∧ final.versions = store.versions := by
  obtain ⟨bytes, versions⟩ := store
  obtain ⟨rest, after⟩ := final
  obtain ⟨taken, counted⟩ := loaded
  rw [Traced.gives_iff]
  constructor
  · rintro ⟨ok, left⟩
    by_cases enough : count ≤ bytes.length
    · simp only [loadBinary, dif_pos enough, Outcome.ok.injEq, Subtype.mk.injEq, Store.mk.injEq]
        at ok left
      obtain ⟨rfl, rfl⟩ := left
      exact ⟨ok ▸ (List.take_append_drop count bytes).symm, rfl⟩
    · simp [loadBinary, enough] at ok
  · rintro ⟨rfl, rfl⟩
    subst counted
    simp [loadBinary]

theorem loaded_u32 {old value : UInt32} {store final : Store κ}
    (gives : Traced.Gives (u32 .input old) store value final) :
    store.bytes = leBytes 4 value.toNat ++ final.bytes ∧ final.versions = store.versions := by
  obtain ⟨loaded, between, read, done⟩ := Traced.gives_bind_iff.mp gives
  obtain ⟨rfl, rfl⟩ := Traced.gives_pure_iff.mp done
  obtain ⟨split, same⟩ := gives_loadBinary_iff.mp read
  have small := ofLeBytes_lt loaded.1
  rw [loaded.2] at small
  rw [UInt32.toNat_ofNat_of_lt' small, leBytes_ofLeBytes loaded.2]
  exact ⟨split, same⟩

theorem Agree.cons {classVersion : κ → UInt32} {versions : List (κ × UInt32)}
    (agree : Agree classVersion versions) (key : κ) :
    Agree classVersion ((key, classVersion key) :: versions) := by
  intro entry member
  rcases List.mem_cons.mp member with rfl | member
  · rfl
  · exact agree entry member

/-! ## Saving what has been loaded -/

section Rewrites

variable (classVersion : κ → UInt32)

/-- A loading run with a value that `Keep`s something took the bytes that the saving run for
this value writes, and both know the same versions afterwards. -/
def Rewrites (load : ArchiveM κ α) (Keep : α → Prop) (save : α → ArchiveM κ β)
    (sent : α → β) : Prop :=
  ∀ versions stream value final, Agree classVersion versions →
    Traced.Gives load ⟨stream, versions⟩ value final →
      Keep value ∧ Agree classVersion final.versions ∧ ∃ bytes, stream = bytes ++ final.bytes ∧
        ∀ written, Traced.Gives (save value) ⟨written, versions⟩ (sent value)
          ⟨written ++ bytes, final.versions⟩

/-- Whatever the object held that is loaded into. -/
def Exact (item : Serializer κ α) : Prop :=
  ∀ old, Rewrites classVersion (item .input old) (fun _ => True) (item .output) id

variable {classVersion}

theorem rewrites_pure {loaded : α} {Keep : α → Prop} {save : α → ArchiveM κ β} {sent : α → β}
    (keeps : Keep loaded) (saves : save loaded = pure (sent loaded)) :
    Rewrites classVersion (pure loaded) Keep save sent := by
  intro versions stream value final agree gives
  obtain ⟨rfl, rfl⟩ := Traced.gives_pure_iff.mp gives
  refine ⟨keeps, agree, [], rfl, fun written => ?_⟩
  rw [saves, Traced.gives_pure_iff, List.append_nil]
  exact ⟨rfl, rfl⟩

/-- First a part of the value, which the rest of the run keeps. -/
theorem Rewrites.bind {γ δ ε : Type} {load : ArchiveM κ γ} {save : γ → ArchiveM κ δ}
    {sentPart : γ → δ} {next : γ → ArchiveM κ α} {saved : α → ArchiveM κ δ}
    {saveNext : α → δ → ArchiveM κ ε} {sent : α → ε} {Keep : α → Prop}
    (first : Rewrites classVersion load (fun _ => True) save sentPart)
    (rest : ∀ loaded, Rewrites classVersion (next loaded)
      (fun value => saved value = save loaded ∧ Keep value)
      (fun value => saveNext value (sentPart loaded)) sent) :
    Rewrites classVersion (load >>= next) Keep
      (fun value => saved value >>= saveNext value) sent := by
  intro versions stream value final agree gives
  obtain ⟨loaded, between, givesFirst, givesRest⟩ := Traced.gives_bind_iff.mp gives
  obtain ⟨-, agreeBetween, front, rfl, saved⟩ := first _ _ _ _ agree givesFirst
  obtain ⟨⟨part, keeps⟩, agreeFinal, back, split, saved'⟩ :=
    rest _ _ _ _ _ agreeBetween givesRest
  refine ⟨keeps, agreeFinal, front ++ back, by rw [split, List.append_assoc], fun written => ?_⟩
  rw [Traced.gives_bind_iff, ← List.append_assoc, part]
  exact ⟨_, _, saved written, saved' (written ++ front)⟩

theorem rewrites_binary (count : Nat) :
    Rewrites classVersion (loadBinary count) (fun _ => True) (fun loaded => saveBinary loaded.1)
      fun _ => () := by
  intro versions stream value final agree gives
  obtain ⟨split, same⟩ := gives_loadBinary_iff.mp gives
  refine ⟨trivial, same ▸ agree, value.1, split, fun written => ⟨[], ?_⟩⟩
  rw [same]
  rfl

theorem exact_u64 : Exact classVersion u64 := by
  intro old
  refine (rewrites_binary 8).bind fun loaded => ?_
  have small := ofLeBytes_lt loaded.1
  rw [loaded.2] at small
  have encoded : leBytes 8 (UInt64.ofNat (ofLeBytes loaded.1)).toNat = loaded.1 := by
    rw [UInt64.toNat_ofNat_of_lt' small, leBytes_ofLeBytes loaded.2]
  exact rewrites_pure ⟨by rw [encoded], trivial⟩ rfl

/-- The length that is saved is the one that has been loaded. -/
theorem Sized.ofNat_length (size : UInt64)
    (loaded : {items : List α // items.length = size.toNat}) :
    UInt64.ofNat (Sized.ofCount size loaded).items.length = size := by
  show UInt64.ofNat loaded.1.length = size
  rw [loaded.2, UInt64.ofNat_toNat]

theorem exact_text : Exact classVersion text := by
  intro old
  refine (exact_u64 0).bind fun size => ?_
  refine (rewrites_binary size.toNat).bind fun loaded => ?_
  exact rewrites_pure ⟨rfl, by rw [Sized.ofNat_length], trivial⟩ rfl

theorem rewrites_items {item : Serializer κ α} (exact : Exact classVersion item) (fresh : α)
    (count : Nat) (old : List α) :
    Rewrites classVersion (loadItems item fresh count old) (fun _ => True)
      (fun loaded => saveItems item loaded.1) fun _ => () := by
  induction count generalizing old with
  | zero =>
    intro versions stream value final agree gives
    obtain ⟨rfl, rfl⟩ := Traced.gives_pure_iff.mp gives
    refine ⟨trivial, agree, [], rfl, fun written => ?_⟩
    rw [List.append_nil]
    exact ⟨[], rfl⟩
  | succ count ih =>
    intro versions stream value final agree gives
    obtain ⟨head, between, givesHead, givesRest⟩ := Traced.gives_bind_iff.mp gives
    obtain ⟨tail, after, givesTail, done⟩ := Traced.gives_bind_iff.mp givesRest
    obtain ⟨rfl, rfl⟩ := Traced.gives_pure_iff.mp done
    obtain ⟨-, agreeBetween, front, rfl, savedHead⟩ := exact _ _ _ _ _ agree givesHead
    obtain ⟨-, agreeFinal, back, split, savedTail⟩ := ih _ _ _ _ _ agreeBetween givesTail
    refine ⟨trivial, agreeFinal, front ++ back, by rw [split, List.append_assoc],
      fun written => ?_⟩
    show Traced.Gives (item .output head >>= fun _ => saveItems item tail.1) _ _ _
    rw [Traced.gives_bind_iff, ← List.append_assoc]
    exact ⟨_, _, savedHead written, savedTail (written ++ front)⟩

theorem exact_sequence {item : Serializer κ α} (exact : Exact classVersion item) (fresh : α) :
    Exact classVersion (sequence item fresh) := by
  intro old
  refine (exact_u64 0).bind fun size => ?_
  refine (rewrites_items exact fresh size.toNat old.items).bind fun loaded => ?_
  exact rewrites_pure ⟨rfl, by rw [Sized.ofNat_length], trivial⟩ rfl

theorem exact_pair {first : Serializer κ α} {second : Serializer κ β}
    (left : Exact classVersion first) (right : Exact classVersion second) :
    Exact classVersion (pair first second) := by
  intro old
  refine (left old.1).bind fun a => ?_
  refine (right old.2).bind fun b => ?_
  exact rewrites_pure ⟨rfl, rfl, trivial⟩ rfl

section Versioned

variable [DecidableEq κ]

/-- A type whose `serialize` loads with no other version than the one of the program. -/
theorem exact_versioned {key : κ} {serialize : Archive → UInt32 → α → ArchiveM κ α}
    (guarded : ∀ version old store value final,
      Traced.Gives (serialize .input version old) store value final → version = classVersion key)
    (exact : Exact classVersion fun archive => serialize archive (classVersion key)) :
    Exact classVersion (versioned classVersion key serialize) := by
  intro old versions stream value final agree gives
  obtain ⟨version, between, registered, givesRest⟩ := Traced.gives_bind_iff.mp gives
  obtain rfl := guarded _ _ _ _ _ givesRest
  simp only [registerClassVersion, Traced.gives_bind_iff, Traced.gives_getState_iff] at registered
  obtain ⟨store, store', ⟨rfl, rfl⟩, registered⟩ := registered
  cases known : versions.lookup key with
  | some version =>
    simp only [known, Traced.gives_pure_iff] at registered
    obtain ⟨-, rfl⟩ := registered
    obtain ⟨-, agreeFinal, bytes, split, saved⟩ := exact _ _ _ _ _ agree givesRest
    refine ⟨trivial, agreeFinal, bytes, split, fun written => ?_⟩
    refine Traced.gives_bind_iff.mpr ⟨classVersion key, _, ⟨[], ?_⟩, saved written⟩
    simp [registerClassVersion, known, Result.prepend]
  | none =>
    simp only [known, Traced.gives_bind_iff, Traced.gives_modifyState_iff,
      Traced.gives_pure_iff] at registered
    obtain ⟨version, store, read, -, -, rfl, rfl, rfl⟩ := registered
    obtain ⟨rfl, same⟩ := loaded_u32 read
    rw [same] at givesRest
    -- the version that has been read is the one that is known from here on
    have agreeAfter : Agree classVersion ((key, classVersion key) :: versions) :=
      agree.cons key
    obtain ⟨-, agreeFinal, bytes, split, saved⟩ := exact _ _ _ _ _ agreeAfter givesRest
    refine ⟨trivial, agreeFinal, leBytes 4 (classVersion key).toNat ++ bytes,
      by rw [split, List.append_assoc], fun written => ?_⟩
    rw [← List.append_assoc]
    refine Traced.gives_bind_iff.mpr ⟨classVersion key, _, ?_, saved (written ++ _)⟩
    simp only [registerClassVersion, Traced.gives_bind_iff, Traced.gives_getState_iff]
    refine ⟨_, _, ⟨rfl, rfl⟩, ?_⟩
    simp only [known, Traced.gives_bind_iff, Traced.gives_modifyState_iff]
    exact ⟨(), _, rfl, gives_u32_output _ _⟩

end Versioned

end Rewrites

/-! ## Several objects in one archive -/

section Objects

variable {Object : κ → Type} (process : (key : κ) → Serializer κ (Object key))

def saveObjects : List (Σ key, Object key) → ArchiveM κ Unit
  | [] => pure ()
  | ⟨key, value⟩ :: objects => do
    let _ ← process key .output value
    saveObjects objects

/-- Each object is loaded into one of its type. -/
def loadObjects : List (Σ key, Object key) → ArchiveM κ (List (Σ key, Object key))
  | [] => pure []
  | ⟨key, old⟩ :: objects => do
    let value ← process key .input old
    let values ← loadObjects objects
    return ⟨key, value⟩ :: values

variable {process} {classVersion : κ → UInt32}

theorem carries_objects (faithful : ∀ key, Faithful classVersion (process key))
    (sent into : List (Σ key, Object key)) (types : sent.map Sigma.fst = into.map Sigma.fst) :
    Carries classVersion (saveObjects process sent) (loadObjects process into) () sent := by
  induction sent generalizing into with
  | nil =>
    obtain rfl := List.map_eq_nil_iff.mp types.symm
    exact carries_pure () []
  | cons object sent ih =>
    cases into with
    | nil => cases types
    | cons old into =>
      obtain ⟨key, value⟩ := object
      obtain ⟨key', old⟩ := old
      obtain ⟨rfl, tails⟩ := List.cons.inj types
      exact (faithful _ value old).bind ((ih into tails).received _)

theorem rewrites_objects (exact : ∀ key, Exact classVersion (process key))
    (into : List (Σ key, Object key)) :
    Rewrites classVersion (loadObjects process into)
      (fun objects => objects.map Sigma.fst = into.map Sigma.fst) (saveObjects process)
      fun _ => () := by
  induction into with
  | nil => exact rewrites_pure rfl rfl
  | cons old into ih =>
    obtain ⟨key, old⟩ := old
    intro versions stream objects final agree gives
    obtain ⟨value, between, givesFirst, givesRest⟩ := Traced.gives_bind_iff.mp gives
    obtain ⟨values, after, givesRest, done⟩ := Traced.gives_bind_iff.mp givesRest
    obtain ⟨rfl, rfl⟩ := Traced.gives_pure_iff.mp done
    obtain ⟨-, agreeBetween, front, rfl, saved⟩ := exact key _ _ _ _ _ agree givesFirst
    obtain ⟨types, agreeFinal, back, split, saved'⟩ := ih _ _ _ _ agreeBetween givesRest
    refine ⟨congrArg (key :: ·) types, agreeFinal, front ++ back,
      by rw [split, List.append_assoc], fun written => ?_⟩
    rw [saveObjects, Traced.gives_bind_iff, ← List.append_assoc]
    exact ⟨_, _, saved written, saved' (written ++ front)⟩

end Objects

/-! ## What can be loaded -/

section Loads

variable {classVersion : κ → UInt32} {load : ArchiveM κ α} {Keep : α → Prop}
  {save : α → ArchiveM κ β} {sent : α → β} {versions versions' : List (κ × UInt32)} {value : α}

theorem gives_unique {program : ArchiveM κ α} {store final final' : Store κ} {value' : α}
    (gives : Traced.Gives program store value final)
    (gives' : Traced.Gives program store value' final') : value = value' ∧ final = final' := by
  obtain ⟨returned, left⟩ := Traced.gives_iff.mp gives
  obtain ⟨returned', left'⟩ := Traced.gives_iff.mp gives'
  rw [returned'] at returned
  exact ⟨(Outcome.ok.inj returned).symm, left.symm.trans left'⟩

/-- What can be loaded is what has been saved, and the same versions are known then. -/
theorem Rewrites.loads_iff (rewrites : Rewrites classVersion load Keep save sent)
    (carries : ∀ value, Keep value → Carries classVersion (save value) load (sent value) value)
    (agree : Agree classVersion versions) {stream rest : List UInt8} :
    Traced.Gives load ⟨stream, versions⟩ value ⟨rest, versions'⟩ ↔
      Keep value ∧ ∃ bytes, stream = bytes ++ rest ∧
        Traced.Gives (save value) ⟨[], versions⟩ (sent value) ⟨bytes, versions'⟩ := by
  constructor
  · intro gives
    obtain ⟨keeps, -, bytes, split, saved⟩ := rewrites _ _ _ _ agree gives
    exact ⟨keeps, bytes, split, saved []⟩
  · rintro ⟨keeps, bytes, rfl, gives⟩
    obtain ⟨carried, versions'', -, saved, loaded⟩ := carries value keeps versions agree
    obtain ⟨rfl, rfl⟩ := Store.mk.inj (gives_unique gives (saved [])).2
    exact loaded rest

/-- The bytes of a saved value, cut anywhere, load as nothing. -/
theorem Rewrites.refuses_cut (rewrites : Rewrites classVersion load Keep save sent)
    (carries : ∀ value, Keep value → Carries classVersion (save value) load (sent value) value)
    (agree : Agree classVersion versions) (keeps : Keep value) {front cut : List UInt8}
    (some : cut ≠ [])
    (saved : Traced.Gives (save value) ⟨[], versions⟩ (sent value) ⟨front ++ cut, versions'⟩)
    (loaded : α) (final : Store κ) : ¬Traced.Gives load ⟨front, versions⟩ loaded final := by
  intro gives
  obtain ⟨rest, known⟩ := final
  obtain ⟨keeps', bytes, rfl, wrote⟩ := (rewrites.loads_iff carries agree).mp gives
  -- with the cut put back, the archive still loads as this value, and also as the saved one
  have whole := (rewrites.loads_iff carries agree).mpr
    ⟨keeps', bytes, List.append_assoc bytes rest cut, wrote⟩
  have all := (rewrites.loads_iff carries agree).mpr
    ⟨keeps, _, (List.append_nil _).symm, saved⟩
  have none : rest ++ cut = [] := congrArg Store.bytes (gives_unique whole all).2
  exact some (List.append_eq_nil_iff.mp none).2

end Loads

end MyappsCommon.Lib.BinaryArchive
