import MyappsCommon.Utility.Archive.Confinement
import MyappsCommon.Utility.Archive.Progress

/-! # What the plain `archive_extract` leaves in its buffers

A piece is accepted as soon as the stream has it in its buffer.  What is still there when the
stream is destroyed is written then, and a refusal is seen by nobody.
-/

namespace MyappsCommon.Utility.Archive

open MyappsCommon.Lib

variable {ε ω : Type}

/-! ## Written and handed bytes -/

def Event.inner? : Event ε → Option ε
  | .step _ => none
  | .inner event => some event

/-- What has happened inside the calls. -/
def inners (trace : List (Event ε)) : List ε := trace.filterMap Event.inner?

@[simp] theorem inners_nil : inners ([] : List (Event ε)) = [] := rfl

@[simp] theorem inners_cons_step (step : Step) (trace : List (Event ε)) :
    inners (.step step :: trace) = inners trace := rfl

@[simp] theorem inners_cons_inner (event : ε) (trace : List (Event ε)) :
    inners (.inner event :: trace) = event :: inners trace := rfl

@[simp] theorem inners_append (first second : List (Event ε)) :
    inners (first ++ second) = inners first ++ inners second := List.filterMap_append

@[simp] theorem inners_map_inner (events : List ε) : inners (events.map Event.inner) = events := by
  induction events with
  | nil => rfl
  | cons event events ih => exact congrArg (event :: ·) ih

/-- Bytes of one file. -/
def bytesTo (path data : Bytes) : List (Bytes × UInt8) := data.map (path, ·)

@[simp] theorem bytesTo_nil (path : Bytes) : bytesTo path [] = [] := rfl

@[simp] theorem bytesTo_append (path first second : Bytes) :
    bytesTo path (first ++ second) = bytesTo path first ++ bytesTo path second := List.map_append

@[simp] theorem length_bytesTo (path data : Bytes) : (bytesTo path data).length = data.length :=
  List.length_map _

def OsEvent.writtenBytes : OsEvent → List (Bytes × UInt8)
  | .written path data true => bytesTo path data
  | .written _ _ false => []
  | .opened _ _ => []

/-- The bytes that the operating system has taken, each with its file. -/
def writtenBytes (events : List OsEvent) : List (Bytes × UInt8) :=
  events.flatMap OsEvent.writtenBytes

@[simp] theorem writtenBytes_nil : writtenBytes [] = [] := rfl

@[simp] theorem writtenBytes_cons (event : OsEvent) (events : List OsEvent) :
    writtenBytes (event :: events) = event.writtenBytes ++ writtenBytes events :=
  List.flatMap_cons

@[simp] theorem writtenBytes_append (first second : List OsEvent) :
    writtenBytes (first ++ second) = writtenBytes first ++ writtenBytes second :=
  List.flatMap_append

/-- No write is refused. -/
def NoneRefused (events : List OsEvent) : Prop :=
  ∀ path data, .written path data false ∉ events

@[simp] theorem noneRefused_nil : NoneRefused [] := fun _ _ => List.not_mem_nil

@[simp] theorem noneRefused_opened (path : Bytes) (success : Bool) (events : List OsEvent) :
    NoneRefused (.opened path success :: events) ↔ NoneRefused events := by
  simp [NoneRefused]

@[simp] theorem noneRefused_append (first second : List OsEvent) :
    NoneRefused (first ++ second) ↔ NoneRefused first ∧ NoneRefused second := by
  simp [NoneRefused, forall_and]

/-- The bytes that the writer functions are given, each with the file of its writer; `path` is
the file of the writer that has been created last. -/
def handedTo (root path : Bytes) : List Step → List (Bytes × UInt8)
  | [] => []
  | .createFileWriter name _ _ _ _ :: logged => handedTo root (targetPath root name) logged
  | .fileWrite buf _ :: logged => bytesTo path buf ++ handedTo root path logged
  | _ :: logged => handedTo root path logged

/-- Of a whole run; no writer has been created before its first step. -/
def handedBytes (root : Bytes) (logged : List Step) : List (Bytes × UInt8) :=
  handedTo root [] logged

/-- The bytes of an entry that is delivered. -/
def ZipEntry.bytes (root : Bytes) (entry : ZipEntry) : List (Bytes × UInt8) :=
  match entry.stat with
  | none => []
  | some stat => bytesTo (targetPath root stat.name) entry.content

theorem handedTo_readSteps (root path : Bytes) (chunks : List Bytes) (last : Int)
    (logged : List Step) :
    handedTo root path (readSteps chunks last ++ logged) =
      bytesTo path chunks.flatten ++ handedTo root path logged := by
  induction chunks with
  | nil => simp [readSteps, handedTo]
  | cons chunk chunks ih => simp [readSteps, handedTo, ih]

theorem handedTo_entrySteps (root path : Bytes) (i : Nat) (entry : ZipEntry) :
    ∃ path', ∀ logged, handedTo root path (entrySteps root i entry ++ logged) =
      entry.bytes root ++ handedTo root path' logged := by
  cases described : entry.stat with
  | none => exact ⟨path, fun logged => by simp [entrySteps, ZipEntry.bytes, described]⟩
  | some stat =>
    cases folder : stat.isFolder with
    | true =>
      refine ⟨path, fun logged => ?_⟩
      cases opens : entry.file with
      | none | some _ =>
        simp [entrySteps, ZipEntry.bytes, ZipEntry.content, described, folder, folderSteps,
          handedTo, opens]
    | false =>
      cases opens : entry.file with
      | none =>
        refine ⟨path, fun logged => ?_⟩
        simp [entrySteps, ZipEntry.bytes, ZipEntry.content, described, folder, handedTo, opens]
      | some file =>
        refine ⟨targetPath root stat.name, fun logged => ?_⟩
        simp [entrySteps, ZipEntry.bytes, ZipEntry.content, described, folder, fileSteps,
          handedTo, opens, handedTo_readSteps]

theorem handedTo_loopSteps (root path : Bytes) (i : Nat) (entries : List ZipEntry) :
    handedTo root path (loopSteps root i entries) =
      entries.flatMap (ZipEntry.bytes root) := by
  induction entries generalizing i path with
  | nil => rfl
  | cons entry entries ih =>
    obtain ⟨path', first⟩ := handedTo_entrySteps root path i entry
    rw [loopSteps, first, ih, List.flatMap_cons]

/-! ## The calls to the operating system -/

inductive OsCall where
  | createDirectory (path : Bytes)
  | openFile (path : Bytes)
  | append (path data : Bytes)
  deriving DecidableEq, Repr

/-- The function looks at the answer of a call that it makes itself; at the destruction of a
stream nobody does. -/
inductive Moment where
  | running
  | destruction
  deriving DecidableEq, Repr

def Os.answer (os : Os ω) : OsCall → ω → Bool × ω
  | .createDirectory path => os.createDirectory path
  | .openFile path => os.openFile path
  | .append path data => os.append path data

/-- Each of the calls of this moment succeeds, when all are made one after the other. -/
def Os.Grants (os : Os ω) (moment : Moment) : List (Moment × OsCall) → ω → Prop
  | [], _ => True
  | (made, call) :: calls, state =>
    (made = moment → (os.answer call state).1 = true) ∧
      os.Grants moment calls (os.answer call state).2

/-- The state that the calls leave, whether they succeed or not. -/
def Os.after (os : Os ω) : List (Moment × OsCall) → ω → ω
  | [], state => state
  | (_, call) :: calls, state => os.after calls (os.answer call state).2

theorem Os.after_append (os : Os ω) (first second : List (Moment × OsCall)) (state : ω) :
    os.after (first ++ second) state = os.after second (os.after first state) := by
  induction first generalizing state with
  | nil => rfl
  | cons call first ih => exact ih _

theorem Os.grants_append (os : Os ω) (moment : Moment) (first second : List (Moment × OsCall))
    (state : ω) :
    os.Grants moment (first ++ second) state ↔
      os.Grants moment first state ∧ os.Grants moment second (os.after first state) := by
  induction first generalizing state with
  | nil => exact (true_and _).to_iff.symm
  | cons call first ih => rw [List.cons_append, Grants, ih, ← and_assoc, ← Grants, after]

/-- The calls that `flushOut` makes. -/
def flushCalls (moment : Moment) (path data : Bytes) : List (Moment × OsCall) :=
  if data = [] then [] else [(moment, .append path data)]

/-- The calls for a file with this much in the buffer and these pieces to come: what each piece
drives out of the buffer, and in the end what is left in it. -/
def writeCalls (spill : Bytes → Bytes → Nat) (path : Bytes) :
    Bytes → List Bytes → List (Moment × OsCall)
  | buffered, [] => flushCalls .destruction path buffered
  | buffered, chunk :: chunks =>
    flushCalls .running path ((buffered ++ chunk).take (spill buffered chunk)) ++
      writeCalls spill path ((buffered ++ chunk).drop (spill buffered chunk)) chunks

/-- The calls that it takes to extract an entry. -/
def ZipEntry.osCalls (spill : Bytes → Bytes → Nat) (root : Bytes) (entry : ZipEntry) :
    List (Moment × OsCall) :=
  match entry.stat with
  | none => []
  | some stat =>
    if stat.isFolder then [(.running, .createDirectory (targetPath root stat.name))]
    else
      match entry.file with
      | none => []
      | some file =>
        (.running, .openFile (targetPath root stat.name)) ::
          writeCalls spill (targetPath root stat.name) [] file.chunks

theorem grants_flushCalls_of_ne {moment other : Moment} (different : moment ≠ other) (os : Os ω)
    (path data : Bytes) (state : ω) : os.Grants other (flushCalls moment path data) state := by
  rw [flushCalls]
  split
  · trivial
  · exact ⟨fun same => absurd same different, trivial⟩

/-- From one state to the other these calls have been made, and those that the function looks
at have succeeded; the events tell whether the others have. -/
structure Follows (os : Os ω) (calls : List (Moment × OsCall)) (start final : ω)
    (events : List OsEvent) : Prop where
  left : final = os.after calls start
  seen : os.Grants .running calls start
  unseen : NoneRefused events ↔ os.Grants .destruction calls start

theorem follows_nil (os : Os ω) (state : ω) : Follows os [] state state [] where
  left := rfl
  seen := trivial
  unseen := iff_of_true noneRefused_nil trivial

theorem Follows.append {os : Os ω} {first second : List (Moment × OsCall)}
    {start between final : ω} {events later : List OsEvent}
    (follows₁ : Follows os first start between events)
    (follows₂ : Follows os second between final later) :
    Follows os (first ++ second) start final (events ++ later) where
  left := by rw [Os.after_append, ← follows₁.left, follows₂.left]
  seen := by
    rw [Os.grants_append, ← follows₁.left]
    exact ⟨follows₁.seen, follows₂.seen⟩
  unseen := by
    rw [noneRefused_append, Os.grants_append, follows₁.unseen, follows₂.unseen, follows₁.left]

/-- A call that makes no write and succeeds. -/
theorem follows_granted {os : Os ω} {call : OsCall} {start final : ω} {events : List OsEvent}
    (answered : os.answer call start = (true, final)) (taken : NoneRefused events) :
    Follows os [(.running, call)] start final events where
  left := by rw [Os.after, Os.after, answered]
  seen := ⟨fun _ => by rw [answered], trivial⟩
  unseen := iff_of_true taken ⟨nofun, trivial⟩

/-! ## The stream -/

/-- How the data is handed to the operating system: in one call, and in none if it is empty. -/
inductive Flush (path data : Bytes) : Bool → List OsEvent → Prop where
  | nothing (empty : data = []) : Flush path data true []
  | written (nonempty : data ≠ []) (success : Bool) :
      Flush path data success [.written path data success]

theorem Flush.taken {path data : Bytes} {events : List OsEvent}
    (flush : Flush path data true events) :
    NoneRefused events ∧ writtenBytes events = bytesTo path data := by
  cases flush with
  | nothing empty => simp [empty]
  | written nonempty => simp [NoneRefused, OsEvent.writtenBytes]

theorem Flush.refused {path data : Bytes} {events : List OsEvent}
    (flush : Flush path data false events) :
    ¬ NoneRefused events ∧ writtenBytes events = [] ∧ data ≠ [] := by
  cases flush with
  | written nonempty =>
    exact ⟨fun none => none path data List.mem_cons_self, rfl, nonempty⟩

theorem Flush.noneRefused_iff {path data : Bytes} {success : Bool} {events : List OsEvent}
    (flush : Flush path data success events) : NoneRefused events ↔ success = true := by
  cases success with
  | true => exact iff_of_true flush.taken.1 rfl
  | false => exact iff_of_false flush.refused.1 Bool.false_ne_true

section

variable (os : Os ω)

theorem flushOut_flush (moment : Moment) (path data : Bytes) (state : PlainState ω) :
    ∃ success events, (flushOut os path data).run state =
        ⟨.ok success, ⟨os.after (flushCalls moment path data) state.os, state.ofs⟩, events⟩ ∧
      Flush path data success events ∧
      (os.Grants moment (flushCalls moment path data) state.os ↔ success = true) := by
  by_cases empty : data = []
  · refine ⟨true, [], by simp [flushOut, flushCalls, empty, Os.after], .nothing empty, ?_⟩
    rw [flushCalls, if_pos empty]
    exact iff_of_true trivial rfl
  · refine ⟨(os.append path data state.os).1, _, ?_, .written empty _, ?_⟩
    · simp [flushOut, flushCalls, empty, Os.after, Os.answer, Result.prepend]
    · simp [flushCalls, empty, Os.Grants, Os.answer]

/-- A write on a good stream: what it drives out of the buffer decides the answer. -/
theorem ofstreamWrite_flush (spill : Bytes → Bytes → Nat) (path buffered buf : Bytes) (start : ω) :
    let out := (buffered ++ buf).take (spill buffered buf)
    ∃ success events, (ofstreamWrite os spill buf).run ⟨start, some ⟨path, buffered, true⟩⟩ =
        ⟨.ok success, ⟨os.after (flushCalls .running path out) start, some ⟨path,
          if success then (buffered ++ buf).drop (spill buffered buf) else buffered, success⟩⟩,
          events⟩ ∧
      Flush path out success events ∧
      (os.Grants .running (flushCalls .running path out) start ↔ success = true) := by
  obtain ⟨success, events, ran, flush, granted⟩ := flushOut_flush os .running path
    ((buffered ++ buf).take (spill buffered buf)) ⟨start, some ⟨path, buffered, true⟩⟩
  exact ⟨success, events, by simp [ofstreamWrite, ran, Result.prepend], flush, granted⟩

/-- What an accepted write adds is either written or in the buffer. -/
theorem ofstreamWrite_true {spill : Bytes → Bytes → Nat} {path buffered buf : Bytes}
    {state final : PlainState ω} {events : List OsEvent}
    (stream : state.ofs = some ⟨path, buffered, true⟩)
    (ran : (ofstreamWrite os spill buf).run state = ⟨.ok true, final, events⟩) :
    let now := spill buffered buf
    final.ofs = some ⟨path, (buffered ++ buf).drop now, true⟩ ∧ NoneRefused events ∧
      writtenBytes events ++ bytesTo path ((buffered ++ buf).drop now) =
        bytesTo path (buffered ++ buf) ∧
      Follows os (flushCalls .running path ((buffered ++ buf).take now)) state.os final.os
        events := by
  obtain ⟨start, ofs⟩ := state
  subst stream
  obtain ⟨success, flushed, unfolded, flush, granted⟩ :=
    ofstreamWrite_flush os spill path buffered buf start
  -- the write is accepted when the flush is
  rw [unfolded, Result.mk.injEq, Outcome.ok.injEq] at ran
  obtain ⟨rfl, rfl, rfl⟩ := ran
  obtain ⟨taken, written⟩ := flush.taken
  have apart : Moment.running ≠ .destruction := by decide
  refine ⟨rfl, taken, ?_, rfl, granted.mpr rfl,
    iff_of_true taken (grants_flushCalls_of_ne apart os _ _ _)⟩
  rw [written, ← bytesTo_append, List.take_append_drop]

theorem ofstreamDestroy_flush {path buffered : Bytes} {state : PlainState ω} {good : Bool}
    (stream : state.ofs = some ⟨path, buffered, good⟩) :
    ∃ success, Flush path buffered success ((ofstreamDestroy os).run state).trace ∧
      Follows os (flushCalls .destruction path buffered) state.os
        ((ofstreamDestroy os).run state).state.os ((ofstreamDestroy os).run state).trace := by
  obtain ⟨success, flushed, ranFlush, flush, granted⟩ :=
    flushOut_flush os .destruction path buffered state
  have unfolded : (ofstreamDestroy os).run state =
      ⟨.ok (), ⟨os.after (flushCalls .destruction path buffered) state.os, none⟩, flushed⟩ := by
    simp [ofstreamDestroy, stream, ranFlush, Result.prepend]
  have apart : Moment.destruction ≠ .running := by decide
  rw [unfolded]
  exact ⟨success, flush, rfl, grants_flushCalls_of_ne apart os _ _ _,
    flush.noneRefused_iff.trans granted.symm⟩

theorem createWriteLambda_true {root fileName : Bytes} {state final : PlainState ω}
    {events : List OsEvent}
    (ran : (createWriteLambda os root fileName).run state = ⟨.ok true, final, events⟩) :
    final.ofs = some ⟨targetPath root fileName, [], true⟩ ∧
      events = [.opened (targetPath root fileName) true] ∧
      os.answer (.openFile (targetPath root fileName)) state.os = (true, final.os) := by
  cases opened : (os.openFile (targetPath root fileName) state.os).1 with
  | false => simp [createWriteLambda, opened, Result.prepend] at ran
  | true =>
    simp [createWriteLambda, opened, Result.prepend] at ran
    obtain ⟨rfl, rfl⟩ := ran
    exact ⟨rfl, rfl, Prod.ext opened rfl⟩

end

/-! ## Runs that return true -/

/-- All the given bytes are written when no write is refused, and fewer when one is. -/
structure Accounts (events : List OsEvent) (given : List (Bytes × UInt8)) : Prop where
  complete : NoneRefused events → writtenBytes events = given
  short : ¬ NoneRefused events → (writtenBytes events).length < given.length

theorem Accounts.length_le {events : List OsEvent} {given : List (Bytes × UInt8)}
    (accounts : Accounts events given) : (writtenBytes events).length ≤ given.length := by
  by_cases taken : NoneRefused events
  · exact Nat.le_of_eq (congrArg List.length (accounts.complete taken))
  · exact Nat.le_of_lt (accounts.short taken)

theorem accounts_nil : Accounts [] [] where
  complete _ := rfl
  short refused := absurd noneRefused_nil refused

theorem Accounts.append {first second : List OsEvent} {given₁ given₂ : List (Bytes × UInt8)}
    (accounts₁ : Accounts first given₁) (accounts₂ : Accounts second given₂) :
    Accounts (first ++ second) (given₁ ++ given₂) where
  complete taken := by
    rw [noneRefused_append] at taken
    rw [writtenBytes_append, accounts₁.complete taken.1, accounts₂.complete taken.2]
  short refused := by
    rw [noneRefused_append, not_and_or] at refused
    have atMost₁ := accounts₁.length_le
    have atMost₂ := accounts₂.length_le
    rw [writtenBytes_append, List.length_append, List.length_append]
    -- neither part has more than it was given, so that the loss of one stays
    rcases refused with refused | refused
    · have fewer := accounts₁.short refused
      omega
    · have fewer := accounts₂.short refused
      omega

theorem Accounts.opened {events : List OsEvent} {given : List (Bytes × UInt8)}
    (accounts : Accounts events given) (path : Bytes) (success : Bool) :
    Accounts (.opened path success :: events) given where
  complete taken := accounts.complete ((noneRefused_opened _ _ _).mp taken)
  short refused := accounts.short ((not_congr (noneRefused_opened _ _ _)).mp refused)

/-- What has been written and what the last call is given make up the whole. -/
theorem accounts_of_flush {path buffered : Bytes} {success : Bool} {events last : List OsEvent}
    {given : List (Bytes × UInt8)} (taken : NoneRefused events)
    (moved : writtenBytes events ++ bytesTo path buffered = given)
    (flush : Flush path buffered success last) : Accounts (events ++ last) given := by
  rw [← moved]
  cases success with
  | true =>
    obtain ⟨takenLast, written⟩ := flush.taken
    have taken : NoneRefused (events ++ last) := (noneRefused_append _ _).mpr ⟨taken, takenLast⟩
    exact ⟨fun _ => by rw [writtenBytes_append, written], fun refused => absurd taken refused⟩
  | false =>
    obtain ⟨refusedLast, written, nonempty⟩ := flush.refused
    have lost : 0 < buffered.length := List.length_pos_iff.mpr nonempty
    refine ⟨fun taken => absurd ((noneRefused_append _ _).mp taken).2 refusedLast, fun _ => ?_⟩
    rw [writtenBytes_append, written, List.append_nil, List.length_append, length_bytesTo]
    omega

/-- Nothing is lost exactly when nothing is refused. -/
theorem Accounts.writtenBytes_eq_iff {events : List OsEvent} {given : List (Bytes × UInt8)}
    (accounts : Accounts events given) : writtenBytes events = given ↔ NoneRefused events := by
  constructor
  · intro all
    by_contra refused
    have fewer := accounts.short refused
    rw [all] at fewer
    exact Nat.lt_irrefl _ fewer
  · exact accounts.complete

section

variable {os : Os ω} {spill : Bytes → Bytes → Nat} {root : Bytes}

/-- What the loop has left in the buffer is all that is still to be written. -/
theorem readLoop_buffers {chunks : List Bytes} {last : Int} {fsz total : UInt64}
    {path buffered : Bytes} {state final : ExtractState (PlainState ω)}
    {trace : List (Event OsEvent)} (stream : state.env.ofs = some ⟨path, buffered, true⟩)
    (ran : (readLoop (plainEnvironment os spill root) chunks last fsz).run state =
      ⟨.ok (some total), final, trace⟩) :
    ∃ buffered' calls, final.env.ofs = some ⟨path, buffered', true⟩ ∧ NoneRefused (inners trace) ∧
      writtenBytes (inners trace) ++ bytesTo path buffered' =
        bytesTo path (buffered ++ chunks.flatten) ∧
      Follows os calls state.env.os final.env.os (inners trace) ∧
      writeCalls spill path buffered chunks = calls ++ flushCalls .destruction path buffered' := by
  induction chunks generalizing buffered fsz state trace with
  | nil =>
    obtain ⟨-, rfl, rfl⟩ := readLoop_nil_ok ran
    exact ⟨buffered, [], stream, by simp, by simp, follows_nil os _, rfl⟩
  | cons chunk chunks ih =>
    obtain ⟨left, events, rest, written, later, rfl⟩ := readLoop_cons_ok ran
    obtain ⟨stream₁, taken, moved, follows⟩ := ofstreamWrite_true os stream written
    obtain ⟨buffered', calls, stream₂, takenRest, movedRest, followsRest, callsRest⟩ :=
      ih stream₁ later
    have inside : inners (.step (.fread chunk.length) :: (events.map Event.inner ++
        .step (.fileWrite chunk (.ok true)) :: rest)) = events ++ inners rest := by simp
    rw [inside]
    refine ⟨buffered', _, stream₂, (noneRefused_append _ _).mpr ⟨taken, takenRest⟩, ?_,
      follows.append followsRest, by rw [writeCalls, callsRest, List.append_assoc]⟩
    rw [writtenBytes_append, List.append_assoc, movedRest, bytesTo_append, ← List.append_assoc,
      moved, ← bytesTo_append, List.append_assoc, List.flatten_cons]

/-- Only the write that the destruction of the stream makes can be refused. -/
theorem extractFile_accounts {i : Nat} {stat : ZipStat} {entry : ZipEntry}
    {state final : ExtractState (PlainState ω)} {trace : List (Event OsEvent)}
    (ran : (extractFile (plainEnvironment os spill root) i stat entry).run state =
      ⟨.ok true, final, trace⟩) :
    ∃ file, entry.file = some file ∧
      Accounts (inners trace) (bytesTo (targetPath root stat.name) file.chunks.flatten) ∧
      Follows os ((.running, .openFile (targetPath root stat.name)) ::
          writeCalls spill (targetPath root stat.name) [] file.chunks)
        state.env.os final.env.os (inners trace) := by
  obtain ⟨file, opened, events, left, read, opens, answered, readRan, rfl, rfl⟩ :=
    extractFile_ok ran
  obtain ⟨stream, rfl, granted⟩ := createWriteLambda_true os answered
  -- the buffer is empty at first, and what it holds in the end is left to the destruction
  obtain ⟨buffered, calls, stream, taken, moved, follows, calls_eq⟩ :=
    readLoop_buffers stream (readFile_ok readRan)
  obtain ⟨success, flush, followsLast⟩ := ofstreamDestroy_flush os stream
  have destroys : (plainEnvironment os spill root).destroyFileWriteFunction =
    ofstreamDestroy os := rfl
  have accounts := accounts_of_flush taken moved flush
  have opening := follows_granted granted
    ((noneRefused_opened (targetPath root stat.name) true []).mpr noneRefused_nil)
  have whole := opening.append (follows.append followsLast)
  rw [← calls_eq] at whole
  refine ⟨file, opens, ?_, ?_⟩
  · simpa [destroys] using accounts.opened (targetPath root stat.name) true
  · simpa [destroys] using whole

/-- A folder is made and the callback is asked; nothing is written. -/
theorem extractFolder_accounts {stat : ZipStat} {state final : ExtractState (PlainState ω)}
    {trace : List (Event OsEvent)}
    (ran : (extractFolder (plainEnvironment os spill root) root stat).run state =
      ⟨.ok true, final, trace⟩) :
    Accounts (inners trace) [] ∧
      Follows os [(.running, .createDirectory (targetPath root stat.name))] state.env.os
        final.env.os (inners trace) := by
  obtain ⟨between, left, events, made, answered, rfl, rfl⟩ := extractFolder_ok ran
  cases answered
  obtain ⟨created, rfl⟩ := Prod.mk.inj made
  have granted : os.answer (.createDirectory (targetPath root stat.name)) state.env.os =
      (true, (os.createDirectory (targetPath root stat.name) state.env.os).2) :=
    Prod.ext created rfl
  exact ⟨accounts_nil, follows_granted granted noneRefused_nil⟩

/-- A turn of the loop that goes on makes the calls for its entry. -/
theorem extractEntry_accounts {i : Nat} {entry : ZipEntry}
    {state final : ExtractState (PlainState ω)} {trace : List (Event OsEvent)}
    (ran : (extractEntry (plainEnvironment os spill root) root i entry).run state =
      ⟨.ok true, final, trace⟩) :
    Accounts (inners trace) (entry.bytes root) ∧
      Follows os (entry.osCalls spill root) state.env.os final.env.os (inners trace) := by
  cases extractEntry_ok ran with
  | skipped described unchanged =>
    rw [ZipEntry.bytes, ZipEntry.osCalls, described, unchanged]
    exact ⟨accounts_nil, follows_nil os state.env.os⟩
  | @folder stat described folder rest made =>
    have nothing : entry.bytes root = [] := by
      cases opens : entry.file with
      | none | some _ => simp [ZipEntry.bytes, ZipEntry.content, described, folder, opens]
    have calls : entry.osCalls spill root =
        [(.running, .createDirectory (targetPath root stat.name))] := by
      simp [ZipEntry.osCalls, described, folder]
    obtain ⟨accounts, follows⟩ := extractFolder_accounts made
    rw [nothing, calls, inners_cons_step]
    exact ⟨accounts, follows⟩
  | @file stat described folder rest written =>
    obtain ⟨file, opens, accounts, follows⟩ := extractFile_accounts written
    have content : entry.bytes root =
        bytesTo (targetPath root stat.name) file.chunks.flatten := by
      simp [ZipEntry.bytes, ZipEntry.content, described, folder, opens]
    have calls : entry.osCalls spill root = (.running, .openFile (targetPath root stat.name)) ::
        writeCalls spill (targetPath root stat.name) [] file.chunks := by
      simp [ZipEntry.osCalls, described, folder, opens]
    rw [content, calls, inners_cons_step]
    exact ⟨accounts, follows⟩

theorem extractLoop_accounts {i : Nat} {entries : List ZipEntry}
    {state final : ExtractState (PlainState ω)} {trace : List (Event OsEvent)}
    (ran : (extractLoop (plainEnvironment os spill root) root i entries).run state =
      ⟨.ok true, final, trace⟩) :
    Accounts (inners trace) (entries.flatMap (ZipEntry.bytes root)) ∧
      Follows os (entries.flatMap (ZipEntry.osCalls spill root)) state.env.os final.env.os
        (inners trace) := by
  induction entries generalizing i state trace with
  | nil =>
    rw [extractLoop, Traced.pure_ok_iff] at ran
    obtain ⟨-, rfl, rfl⟩ := ran
    exact ⟨accounts_nil, follows_nil os _⟩
  | cons entry entries ih =>
    obtain ⟨between, _, _, first, later, rfl⟩ := extractLoop_cons_ok ran
    obtain ⟨accounts, follows⟩ := extractEntry_accounts first
    obtain ⟨accountsRest, followsRest⟩ := ih later
    rw [inners_append, List.flatMap_cons, List.flatMap_cons]
    exact ⟨accounts.append accountsRest, follows.append followsRest⟩

/-! ## Runs in which all that is looked at succeeds -/

/-- The pieces are accepted, and at the destruction all calls for the file have been made. -/
theorem writesAll_of_grants (root : Bytes) {chunks : List Bytes} {path buffered : Bytes} {start : ω}
    (seen : os.Grants .running (writeCalls spill path buffered chunks) start) :
    ∃ written, WritesAll (plainEnvironment os spill root) chunks
        ⟨start, some ⟨path, buffered, true⟩⟩ written ∧
      ((ofstreamDestroy os).run written).state.os =
        os.after (writeCalls spill path buffered chunks) start := by
  induction chunks generalizing buffered start with
  | nil =>
    obtain ⟨_, _, follows⟩ := ofstreamDestroy_flush os
      (show (PlainState.mk start (some ⟨path, buffered, true⟩)).ofs = _ from rfl)
    exact ⟨_, rfl, follows.left⟩
  | cons chunk chunks ih =>
    rw [writeCalls, Os.grants_append] at seen
    obtain ⟨success, events, ran, -, granted⟩ :=
      ofstreamWrite_flush os spill path buffered chunk start
    obtain rfl := granted.mp seen.1
    obtain ⟨written, writes, left⟩ := ih seen.2
    refine ⟨written, ⟨_, ⟨events, ran⟩, writes⟩, ?_⟩
    rw [left, writeCalls, Os.after_append]

theorem fileDelivered_of_grants {stat : ZipStat} {file : ZipFile} {state : PlainState ω}
    (seen : os.Grants .running ((.running, .openFile (targetPath root stat.name)) ::
      writeCalls spill (targetPath root stat.name) [] file.chunks) state.os) (entry : ZipEntry) :
    ∃ final, FileDelivered (plainEnvironment os spill root) stat entry file state final ∧
      final.os = os.after ((.running, .openFile (targetPath root stat.name)) ::
        writeCalls spill (targetPath root stat.name) [] file.chunks) state.os := by
  obtain ⟨opens, seen⟩ := seen
  have success : (os.openFile (targetPath root stat.name) state.os).1 = true := opens rfl
  obtain ⟨written, writes, left⟩ := writesAll_of_grants root seen
  refine ⟨_, ⟨_, written, _, ⟨[.opened (targetPath root stat.name) true], ?_⟩, writes, rfl, rfl⟩,
    left⟩
  simp [plainEnvironment, createWriteLambda, success, Result.prepend, Os.answer]

theorem entryDelivered_of_grants {entry : ZipEntry} {state : PlainState ω} (whole : entry.Whole)
    (seen : os.Grants .running (entry.osCalls spill root) state.os) :
    ∃ final, EntryDelivered (plainEnvironment os spill root) root entry state final ∧
      final.os = os.after (entry.osCalls spill root) state.os := by
  cases described : entry.stat with
  | none =>
    rw [ZipEntry.osCalls, described]
    exact ⟨state, (entryDelivered_skipped described).mpr rfl, rfl⟩
  | some stat =>
    cases folder : stat.isFolder with
    | true =>
      have calls : entry.osCalls spill root =
          [(.running, .createDirectory (targetPath root stat.name))] := by
        simp [ZipEntry.osCalls, described, folder]
      rw [calls] at seen ⊢
      have success : (os.createDirectory (targetPath root stat.name) state.os).1 = true :=
        seen.1 rfl
      refine ⟨⟨(os.createDirectory (targetPath root stat.name) state.os).2, state.ofs⟩,
        (entryDelivered_folder described folder).mpr ⟨_, ?_, [], rfl⟩, rfl⟩
      exact Prod.ext success rfl
    | false =>
      obtain ⟨file, opens, counted⟩ := whole stat described folder
      have calls : entry.osCalls spill root = (.running, .openFile (targetPath root stat.name)) ::
          writeCalls spill (targetPath root stat.name) [] file.chunks := by
        simp [ZipEntry.osCalls, described, folder, opens]
      rw [calls] at seen ⊢
      obtain ⟨final, delivered, left⟩ := fileDelivered_of_grants seen entry
      exact ⟨final,
        (entryDelivered_file described folder).mpr ⟨file, opens, counted, delivered⟩, left⟩

theorem loopDelivered_of_grants {entries : List ZipEntry} {state : PlainState ω}
    (whole : ∀ entry ∈ entries, entry.Whole)
    (seen : os.Grants .running (entries.flatMap (ZipEntry.osCalls spill root)) state.os) :
    ∃ final, LoopDelivered (plainEnvironment os spill root) root entries state final := by
  induction entries generalizing state with
  | nil => exact ⟨state, rfl⟩
  | cons entry entries ih =>
    rw [List.forall_mem_cons] at whole
    rw [List.flatMap_cons, Os.grants_append] at seen
    obtain ⟨between, first, left⟩ := entryDelivered_of_grants whole.1 seen.1
    rw [← left] at seen
    obtain ⟨final, rest⟩ := ih whole.2 seen.2
    exact ⟨final, between, first, rest⟩

end

/-! ## The whole call -/

/-- The call gives true when every entry is whole and every call that it looks at succeeds. -/
theorem archiveExtract_true_of_grants {os : Os ω} {spill : Bytes → Bytes → Nat} {root : Bytes}
    {zipOpen : Bytes → Option (List ZipEntry)} {path : Bytes}
    {state : ExtractState (PlainState ω)}
    (whole : ∀ entry ∈ (zipOpen path).getD [], entry.Whole)
    (seen : os.Grants .running (((zipOpen path).getD []).flatMap (ZipEntry.osCalls spill root))
      state.env.os) :
    ((archiveExtract os spill root zipOpen path).run state).outcome = .ok true := by
  obtain ⟨final, delivered⟩ := loopDelivered_of_grants whole seen
  obtain ⟨_, ran⟩ := extractLoop_of_delivered delivered 0 state.runcompressedSize
  rw [archiveExtract, run_doArchiveExtract, ran]
  rfl

/-- In a call that gives true nothing is lost exactly when nothing is refused unseen. -/
theorem archiveExtract_accounts {os : Os ω} {spill : Bytes → Bytes → Nat} {root : Bytes}
    {zipOpen : Bytes → Option (List ZipEntry)} {path : Bytes}
    {state : ExtractState (PlainState ω)}
    (success : ((archiveExtract os spill root zipOpen path).run state).outcome = .ok true) :
    let extracted := (archiveExtract os spill root zipOpen path).run state
    let calls := ((zipOpen path).getD []).flatMap (ZipEntry.osCalls spill root)
    os.Grants .running calls state.env.os ∧
      (writtenBytes (inners extracted.trace) = handedBytes root (steps extracted.trace) ↔
        os.Grants .destruction calls state.env.os) := by
  intro extracted calls
  have logged : steps extracted.trace =
      .zipOpen (zipOpen path).isSome :: loopSteps root 0 ((zipOpen path).getD []) :=
    (doArchiveExtract_true success).2
  have handed : handedBytes root (steps extracted.trace) =
      ((zipOpen path).getD []).flatMap (ZipEntry.bytes root) := by
    rw [logged]
    exact handedTo_loopSteps root [] 0 _
  have unfolded : extracted = ((extractLoop (plainEnvironment os spill root) root 0
      ((zipOpen path).getD [])).run state).prepend [.step (.zipOpen (zipOpen path).isSome)] :=
    run_doArchiveExtract zipOpen path state
  change extracted.outcome = _ at success
  rw [unfolded, Result.prepend_outcome] at success
  obtain ⟨_, _, ran⟩ := Result.eq_of_outcome success
  obtain ⟨accounts, follows⟩ := extractLoop_accounts ran
  refine ⟨follows.seen, ?_⟩
  rw [handed, unfolded, ran, ← follows.unseen]
  exact accounts.writtenBytes_eq_iff

/-- If the call returns true it has written every byte that it has given to a writer: this holds
exactly when the operating system, from the state it is in at first, refuses no write at the
destruction of a stream, unless some entry is not whole or a call that is looked at is refused. -/
theorem extract_writes_all_iff (os : Os ω) (spill : Bytes → Bytes → Nat) (root : Bytes)
    (zipOpen : Bytes → Option (List ZipEntry)) (path : Bytes)
    (state : ExtractState (PlainState ω)) :
    let extracted := (archiveExtract os spill root zipOpen path).run state
    let entries := (zipOpen path).getD []
    let calls := entries.flatMap (ZipEntry.osCalls spill root)
    (extracted.outcome = .ok true →
      writtenBytes (inners extracted.trace) = handedBytes root (steps extracted.trace)) ↔
    ((∀ entry ∈ entries, entry.Whole) → os.Grants .running calls state.env.os →
      os.Grants .destruction calls state.env.os) := by
  intro extracted entries calls
  constructor
  · intro kept whole seen
    have success : extracted.outcome = .ok true := archiveExtract_true_of_grants whole seen
    exact (archiveExtract_accounts success).2.mp (kept success)
  · intro granted success
    obtain ⟨seen, all⟩ := archiveExtract_accounts success
    exact all.mpr (granted (doArchiveExtract_true success).1 seen)

/-- The operating system refuses every write. -/
def fullOs : Os Unit where
  createDirectory _ _ := (true, ())
  openFile _ _ := (true, ())
  append _ _ _ := (false, ())

/-- A stream that writes nothing before it is destroyed. -/
def writeAtEnd (_buffered _buf : Bytes) : Nat := 0

/-- The disk is full: the call returns true and the byte is lost. -/
theorem extract_loses_byte :
    ((archiveExtract fullOs writeAtEnd [114] (fun _ => some [oneByteEntry]) [122]).run
        ⟨⟨(), none⟩, 0⟩).outcome = .ok true ∧
      writtenBytes (inners ((archiveExtract fullOs writeAtEnd [114] (fun _ => some [oneByteEntry])
        [122]).run ⟨⟨(), none⟩, 0⟩).trace) = [] ∧
      handedBytes [114] (steps ((archiveExtract fullOs writeAtEnd [114]
        (fun _ => some [oneByteEntry]) [122]).run ⟨⟨(), none⟩, 0⟩).trace) =
          [([114, 47, 97], 97)] := by
  decide +kernel

end MyappsCommon.Utility.Archive
