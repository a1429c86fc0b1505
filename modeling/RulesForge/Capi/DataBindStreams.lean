import Mathlib.Data.List.Range
import RulesForge.Library.AssocMap

/-!
# DataBind streams of the C interface

A client feeds records to a continuous session through a stream handle
(`ruleforge_continuous_data_bind_stream_*` in `capi/src/rules_forge.cpp`): every `feed` parses a
chunk and collects the records, and `finish` pushes all of them as one batch. A failure makes the
handle unusable. The session counts its streams and cannot be destroyed while there are any.

DataBind itself is not part of the repository. What it does with a chunk is a parameter: the
records that it hands to the record callback, each with its index, as long as the callback asks to
continue, and the status it returns, which may depend on whether the callback has. That it returns
an error when the callback asks to stop is an assumption (`Library.StopsOnRefusal`).

A handle that is not live is never used: such a call has no result here.
-/

namespace RulesForge

namespace DataBindStreams

/-! ### Handles -/

/-- What DataBind makes of the input of one call; whether the status is OK, by whether the callback
has asked to continue every time. -/
structure Parsed (σ Record : Type) where
  stream : σ
  records : List (Record × ℕ)
  ok : Bool → Bool

/-- The streams of DataBind. -/
structure Library (σ Chunk Record : Type) where
  feed : Chunk → σ → Parsed σ Record
  finish : σ → Parsed σ Record

/-- A record that the callback refuses makes DataBind return an error. -/
structure Library.StopsOnRefusal {σ Chunk Record : Type} (lib : Library σ Chunk Record) : Prop where
  feed : ∀ chunk stream, (lib.feed chunk stream).ok false = false
  finish : ∀ stream, (lib.finish stream).ok false = false

/-- `ruleforge_continuous_data_bind_stream_handle_s` for several records. -/
structure StreamHandle (σ Event : Type) where
  session : ℕ
  stream : σ
  pendingEvents : List Event := []
  failed : Bool := false
  finished : Bool := false

section Handles

variable {σ Chunk Record Event : Type} (lib : Library σ Chunk Record)
  (convert : Record → Option Event)

/-- `collect_continuous_stream_record`: none when the record is refused, because its index is not
the number of records so far or because it cannot be converted. -/
def collectRecord (pending : List Event) (record : Record × ℕ) : Option (List Event) :=
  if record.2 ≠ pending.length then none
  else (convert record.1).map fun event ↦ pending ++ [event]

/-- The calls of the record callback, up to the first that asks to stop; whether none did. -/
def collectRecords : List Event → List (Record × ℕ) → List Event × Bool
  | pending, [] => (pending, true)
  | pending, record :: records =>
    match collectRecord convert pending record with
    | none => (pending, false)
    | some pending => collectRecords pending records

/-- `reject_unusable_continuous_data_bind_stream`. -/
def StreamHandle.unusable (h : StreamHandle σ Event) : Bool :=
  h.failed || h.finished

/-- `ruleforge_continuous_data_bind_stream_feed`, and whether it returns OK. -/
def StreamHandle.feed (chunk : Chunk) (h : StreamHandle σ Event) : StreamHandle σ Event × Bool :=
  if h.unusable then (h, false)
  else
    let parsed := lib.feed chunk h.stream
    let (pending, continued) := collectRecords convert h.pendingEvents parsed.records
    if parsed.ok continued then
      ({ h with stream := parsed.stream, pendingEvents := pending }, true)
    else ({ h with stream := parsed.stream, pendingEvents := [], failed := true }, false)

/-- `ruleforge_continuous_data_bind_stream_finish` up to the push: the events that are pushed, if
it comes to that. -/
def StreamHandle.finish (h : StreamHandle σ Event) : StreamHandle σ Event × Option (List Event) :=
  if h.unusable then (h, none)
  else
    let parsed := lib.finish h.stream
    let (pending, continued) := collectRecords convert h.pendingEvents parsed.records
    let h := { h with stream := parsed.stream, pendingEvents := pending, finished := true }
    if parsed.ok continued then (h, some pending) else ({ h with failed := true }, none)

/-- A call on a handle: a chunk is fed, or the stream is finished. -/
inductive StreamCall (Chunk : Type) where
  | feed (chunk : Chunk)
  | finish

/-- One call on a handle, and the batch it pushes. -/
def StreamHandle.call (h : StreamHandle σ Event) :
    StreamCall Chunk → StreamHandle σ Event × Option (List Event)
  | .feed chunk => ((h.feed lib convert chunk).1, none)
  | .finish => h.finish lib convert

/-- The calls on a handle in turn, and the batches they push. -/
def StreamHandle.calls (h : StreamHandle σ Event) :
    List (StreamCall Chunk) → StreamHandle σ Event × List (List Event)
  | [] => (h, [])
  | call :: rest =>
    let (h, pushed) := h.call lib convert call
    let (h, batches) := h.calls rest
    (h, pushed.toList ++ batches)

/-! ### What a stream stands for -/

/-- The records of some chunks and of the end of the input, all of them accepted by DataBind. -/
inductive Parses (lib : Library σ Chunk Record) : σ → List Chunk → List (Record × ℕ) → Prop
  | finish {stream} : (lib.finish stream).ok true = true →
      Parses lib stream [] (lib.finish stream).records
  | feed {stream chunk chunks records} : (lib.feed chunk stream).ok true = true →
      Parses lib (lib.feed chunk stream).stream chunks records →
      Parses lib stream (chunk :: chunks) ((lib.feed chunk stream).records ++ records)

/-- The events of records that are numbered from a count on. -/
def EventsFrom (convert : Record → Option Event) (first : ℕ) (records : List (Record × ℕ))
    (events : List Event) : Prop :=
  records.map Prod.snd = List.range' first records.length ∧
    records.map (fun record ↦ convert record.1) = events.map some

/-- The calls feed some chunks and finish the stream, and the records, numbered from a count on,
make up the events. -/
def Delivers (first : ℕ) (stream : σ) (calls : List (StreamCall Chunk)) (events : List Event) :
    Prop :=
  ∃ chunks rest records, calls = chunks.map .feed ++ .finish :: rest ∧
    Parses lib stream chunks records ∧ EventsFrom convert first records events

variable {lib convert}

variable {first : ℕ} {events : List Event} {calls : List (StreamCall Chunk)}
  {h : StreamHandle σ Event}

theorem EventsFrom.unique {records : List (Record × ℕ)} {events events' : List Event}
    (h : EventsFrom convert first records events) (h' : EventsFrom convert first records events') :
    events = events' :=
  List.map_injective_iff.mpr (fun _ _ ↦ Option.some.inj) (h.2.symm.trans h'.2)

@[simp]
theorem eventsFrom_nil :
    EventsFrom convert first [] events ↔ events = [] := by
  constructor
  · rintro ⟨-, hevents⟩
    simpa using hevents.symm
  · rintro rfl
    exact ⟨rfl, rfl⟩

theorem eventsFrom_cons {record : Record × ℕ} {records : List (Record × ℕ)} :
    EventsFrom convert first (record :: records) events ↔ record.2 = first ∧
      ∃ event rest, events = event :: rest ∧ convert record.1 = some event ∧
        EventsFrom convert (first + 1) records rest := by
  simp only [EventsFrom, List.map_cons, List.length_cons, List.range'_succ, List.cons.injEq]
  constructor
  · rintro ⟨⟨hindex, hindexes⟩, hevents⟩
    cases events with
    | nil => simp at hevents
    | cons event rest =>
      rw [List.map_cons, List.cons.injEq] at hevents
      exact ⟨hindex, event, rest, rfl, hevents.1, hindexes, hevents.2⟩
  · rintro ⟨hindex, event, rest, rfl, hevent, hindexes, hevents⟩
    exact ⟨⟨hindex, hindexes⟩, by rw [List.map_cons, hevent, hevents]⟩

theorem eventsFrom_append {records records' : List (Record × ℕ)} :
    EventsFrom convert first (records ++ records') events ↔
      ∃ start rest, events = start ++ rest ∧ EventsFrom convert first records start ∧
        EventsFrom convert (first + start.length) records' rest := by
  induction records generalizing first events with
  | nil => simp
  | cons record records ih =>
    simp only [List.cons_append, eventsFrom_cons, ih]
    constructor
    · rintro ⟨hindex, event, events, rfl, hevent, start, rest, rfl, hstart, hrest⟩
      refine ⟨event :: start, rest, rfl, ⟨hindex, event, start, rfl, hevent, hstart⟩, ?_⟩
      rwa [List.length_cons, Nat.add_comm start.length, ← Nat.add_assoc]
    · rintro ⟨start, rest, rfl, ⟨hindex, event, start, rfl, hevent, hstart⟩, hrest⟩
      rw [List.length_cons, Nat.add_comm start.length, ← Nat.add_assoc] at hrest
      exact ⟨hindex, event, start ++ rest, rfl, hevent, start, rest, rfl, hstart, hrest⟩

/-- The callback accepts all records exactly when they go on with the numbering and every one of
them can be converted. -/
theorem collectRecords_eq_iff {pending pending' : List Event} {records : List (Record × ℕ)} :
    collectRecords convert pending records = (pending', true) ↔
      ∃ events, pending' = pending ++ events ∧
        EventsFrom convert pending.length records events := by
  induction records generalizing pending with
  | nil => simp [collectRecords, eq_comm]
  | cons record records ih =>
    simp only [collectRecords, collectRecord, eventsFrom_cons]
    by_cases hindex : record.2 = pending.length
    · cases hconvert : convert record.1 with
      | none => simp [hindex]
      | some event =>
        simp only [hindex, ne_eq, not_true_eq_false, if_false, Option.map_some, ih,
          List.length_append, List.length_singleton, true_and]
        constructor
        · rintro ⟨events, rfl, hevents⟩
          exact ⟨event :: events, by simp, event, events, rfl, rfl, hevents⟩
        · rintro ⟨events, rfl, -, rest, rfl, ⟨⟩, hrest⟩
          exact ⟨rest, by simp, hrest⟩
    · simp [hindex]

theorem not_delivers_nil {stream : σ} :
    ¬ Delivers lib convert first stream [] events := by
  rintro ⟨chunks, rest, records, hcalls, -⟩
  simp at hcalls

theorem delivers_finish {stream : σ} :
    Delivers lib convert first stream (.finish :: calls) events ↔
      (lib.finish stream).ok true = true ∧
        EventsFrom convert first (lib.finish stream).records events := by
  constructor
  · rintro ⟨chunks, rest, records, hcalls, hparses, hevents⟩
    cases hparses with
    | finish hok => exact ⟨hok, hevents⟩
    | feed _ _ => simp at hcalls
  · rintro ⟨hok, hevents⟩
    exact ⟨[], calls, _, rfl, .finish hok, hevents⟩

theorem delivers_feed {stream : σ} {chunk : Chunk} :
    Delivers lib convert first stream (.feed chunk :: calls) events ↔
      (lib.feed chunk stream).ok true = true ∧ ∃ start rest, events = start ++ rest ∧
        EventsFrom convert first (lib.feed chunk stream).records start ∧
        Delivers lib convert (first + start.length) (lib.feed chunk stream).stream calls rest := by
  constructor
  · rintro ⟨chunks, after, records, hcalls, hparses, hevents⟩
    cases hparses with
    | finish _ => simp at hcalls
    | @feed _ chunk' chunks records hok hparses =>
      rw [List.map_cons, List.cons_append, List.cons.injEq, StreamCall.feed.injEq] at hcalls
      obtain ⟨rfl, rfl⟩ := hcalls
      obtain ⟨start, rest, rfl, hstart, hrest⟩ := eventsFrom_append.mp hevents
      exact ⟨hok, start, rest, rfl, hstart, chunks, after, records, rfl, hparses, hrest⟩
  · rintro ⟨hok, start, rest, rfl, hstart, chunks, after, records, rfl, hparses, hrest⟩
    exact ⟨chunk :: chunks, after, _, rfl, .feed hok hparses,
      eventsFrom_append.mpr ⟨start, rest, rfl, hstart, hrest⟩⟩

/-! ### The calls on one handle -/

theorem StreamHandle.calls_of_unusable (hunusable : h.unusable = true)
    (calls : List (StreamCall Chunk)) : h.calls lib convert calls = (h, []) := by
  induction calls with
  | nil => rfl
  | cons call calls ih =>
    have hcall : h.call lib convert call = (h, none) := by
      cases call <;> simp [StreamHandle.call, StreamHandle.feed, StreamHandle.finish, hunusable]
    simp only [StreamHandle.calls, hcall, ih, Option.toList_none, List.nil_append]

variable (lib convert) in
/-- A usable handle is fed: it either goes on with the events of the chunk, or is of no more use
and forgets all of them. -/
theorem StreamHandle.feed_cases (hlib : lib.StopsOnRefusal)
    (husable : h.unusable = false) (chunk : Chunk) :
    (∃ events, (lib.feed chunk h.stream).ok true = true ∧
      EventsFrom convert h.pendingEvents.length (lib.feed chunk h.stream).records events ∧
      h.feed lib convert chunk = ({ h with
        stream := (lib.feed chunk h.stream).stream
        pendingEvents := h.pendingEvents ++ events }, true)) ∨
    ((lib.feed chunk h.stream).ok true = true →
      ∀ events,
        ¬ EventsFrom convert h.pendingEvents.length (lib.feed chunk h.stream).records events) ∧
      (h.feed lib convert chunk).1.unusable = true ∧ (h.feed lib convert chunk).2 = false := by
  obtain ⟨⟨pending, continued⟩, hcollect⟩ :
      ∃ r, collectRecords convert h.pendingEvents (lib.feed chunk h.stream).records = r := ⟨_, rfl⟩
  simp only [StreamHandle.feed, husable, hcollect, Bool.false_eq_true, if_false]
  by_cases hok : (lib.feed chunk h.stream).ok continued = true
  · have hcontinued : continued = true := by
      cases continued with
      | true => rfl
      | false => exact absurd (hlib.feed chunk h.stream ▸ hok) Bool.false_ne_true
    subst hcontinued
    obtain ⟨events, rfl, hevents⟩ := collectRecords_eq_iff.mp hcollect
    exact .inl ⟨events, hok, hevents, by rw [if_pos hok]⟩
  · refine .inr ⟨?_, by simp [hok, StreamHandle.unusable], by simp [hok]⟩
    intro hparsed events hevents
    have hcollected := collectRecords_eq_iff.mpr ⟨events, rfl, hevents⟩
    obtain ⟨-, rfl⟩ := Prod.mk.inj (hcollect.symm.trans hcollected)
    exact hok hparsed

variable (lib convert) in
/-- A handle that is finished is unusable from then on. -/
theorem StreamHandle.unusable_finish (husable : h.unusable = false) :
    (h.finish lib convert).1.unusable = true := by
  simp only [StreamHandle.finish, husable, Bool.false_eq_true, if_false]
  split <;> simp [StreamHandle.unusable]

variable (lib convert) in
/-- A usable handle pushes its events when the end of the input is accepted. -/
theorem StreamHandle.finish_eq_some_iff (hlib : lib.StopsOnRefusal)
    (husable : h.unusable = false) (batch : List Event) :
    (h.finish lib convert).2 = some batch ↔ ∃ events, batch = h.pendingEvents ++ events ∧
      (lib.finish h.stream).ok true = true ∧
      EventsFrom convert h.pendingEvents.length (lib.finish h.stream).records events := by
  obtain ⟨⟨pending, continued⟩, hcollect⟩ :
      ∃ r, collectRecords convert h.pendingEvents (lib.finish h.stream).records = r := ⟨_, rfl⟩
  simp only [StreamHandle.finish, husable, hcollect, Bool.false_eq_true, if_false]
  by_cases hok : (lib.finish h.stream).ok continued = true
  · have hcontinued : continued = true := by
      cases continued with
      | true => rfl
      | false => exact absurd (hlib.finish h.stream ▸ hok) Bool.false_ne_true
    subst hcontinued
    rw [if_pos hok, Option.some.injEq, eq_comm]
    constructor
    · rintro rfl
      obtain ⟨events, hbatch, hevents⟩ := collectRecords_eq_iff.mp hcollect
      exact ⟨events, hbatch, hok, hevents⟩
    · rintro ⟨events, rfl, -, hevents⟩
      have hcollected := collectRecords_eq_iff.mpr ⟨events, rfl, hevents⟩
      exact (Prod.mk.inj (hcollected.symm.trans hcollect)).1
  · rw [if_neg hok]
    constructor
    · intro h
      cases h
    · rintro ⟨events, rfl, hparsed, hevents⟩
      have hcollected := collectRecords_eq_iff.mpr ⟨events, rfl, hevents⟩
      obtain ⟨-, rfl⟩ := Prod.mk.inj (hcollect.symm.trans hcollected)
      exact absurd hparsed hok

theorem StreamHandle.length_calls_le (h : StreamHandle σ Event)
    (calls : List (StreamCall Chunk)) : (h.calls lib convert calls).2.length ≤ 1 := by
  induction calls generalizing h with
  | nil => exact Nat.zero_le 1
  | cons call calls ih =>
    cases call with
    | feed chunk => exact ih (h.feed lib convert chunk).1
    | finish =>
      by_cases hunusable : h.unusable = true
      · rw [StreamHandle.calls_of_unusable hunusable]
        exact Nat.zero_le 1
      · have hfinished := h.unusable_finish lib convert (Bool.eq_false_iff.mpr hunusable)
        show ((h.finish lib convert).2.toList
          ++ ((h.finish lib convert).1.calls lib convert calls).2).length ≤ 1
        rw [StreamHandle.calls_of_unusable hfinished, List.append_nil, Option.length_toList]
        split_ifs <;> omega

theorem StreamHandle.mem_calls_iff (hlib : lib.StopsOnRefusal)
    (husable : h.unusable = false) {batch : List Event} :
    batch ∈ (h.calls lib convert calls).2 ↔ ∃ events, batch = h.pendingEvents ++ events ∧
      Delivers lib convert h.pendingEvents.length h.stream calls events := by
  induction calls generalizing h with
  | nil => simp [StreamHandle.calls, not_delivers_nil]
  | cons call calls ih =>
    cases call with
    | feed chunk =>
      show batch ∈ ((h.feed lib convert chunk).1.calls lib convert calls).2 ↔ _
      simp only [delivers_feed]
      obtain ⟨start, hok, hstart, hfeed⟩ | ⟨hnone, hunusable, -⟩ :=
        h.feed_cases lib convert hlib husable chunk
      · rw [hfeed, ih (h := { h with
          stream := (lib.feed chunk h.stream).stream
          pendingEvents := h.pendingEvents ++ start }) husable]
        simp only [List.length_append]
        constructor
        · rintro ⟨rest, rfl, hrest⟩
          exact ⟨start ++ rest, List.append_assoc _ _ _, hok, start, rest, rfl, hstart, hrest⟩
        · rintro ⟨events, rfl, -, start', rest, rfl, hstart', hrest⟩
          obtain rfl : start' = start := hstart'.unique hstart
          exact ⟨rest, (List.append_assoc _ _ _).symm, hrest⟩
      · rw [StreamHandle.calls_of_unusable hunusable]
        refine ⟨fun h ↦ absurd h List.not_mem_nil, ?_⟩
        rintro ⟨events, -, hok, start, -, -, hstart, -⟩
        exact absurd hstart (hnone hok start)
    | finish =>
      show batch ∈ (h.finish lib convert).2.toList
        ++ ((h.finish lib convert).1.calls lib convert calls).2 ↔ _
      rw [StreamHandle.calls_of_unusable (h.unusable_finish lib convert husable), List.append_nil,
        Option.mem_toList, h.finish_eq_some_iff lib convert hlib husable]
      simp only [delivers_finish]

end Handles

/-! ### Sessions and their streams -/

/-- The live sessions, each with its `active_data_bind_streams`, and the live handles. -/
structure World (σ Event : Type) where
  sessions : List (ℕ × ℕ) := []
  streams : List (ℕ × StreamHandle σ Event) := []

/-- A batch that a handle pushes into its session. -/
structure Push (Event : Type) where
  session : ℕ
  address : ℕ
  events : List Event

/-- A call of the client. Sessions and streams are named by their addresses; a stream is created
with the stream of DataBind, if that could be created. -/
inductive Call (σ Chunk : Type) where
  | createSession (session : ℕ)
  | createStream (address session : ℕ) (stream : Option σ)
  | onStream (address : ℕ) (call : StreamCall Chunk)
  | destroyStream (address : ℕ)
  | destroySession (session : ℕ)

section Worlds

variable {σ Chunk Record Event : Type} (lib : Library σ Chunk Record)
  (convert : Record → Option Event)

/-- One call. It has no result where something is read that is not live, or where an address that
is in use would be given out. -/
def World.step (w : World σ Event) :
    Call σ Chunk → Option (World σ Event × Option (Push Event))
  | .createSession session =>
    if AssocMap.contains session w.sessions then none
    else some ({ w with sessions := AssocMap.insert session 0 w.sessions }, none)
  | .createStream address session stream =>
    if AssocMap.contains address w.streams then none
    else match w.sessions.lookup session, stream with
      | none, _ => none
      | some _, none => some (w, none)
      | some active, some stream =>
        some ({ sessions := AssocMap.insert session (active + 1) w.sessions
                streams := AssocMap.insert address ⟨session, stream, [], false, false⟩
                  w.streams }, none)
  | .onStream address call =>
    match w.streams.lookup address with
    | none => none
    | some h =>
      let next := h.call lib convert call
      let w' := { w with streams := AssocMap.insert address next.1 w.streams }
      match next.2 with
      | none => some (w', none)
      | some events =>
        if AssocMap.contains h.session w.sessions then some (w', some ⟨h.session, address, events⟩)
        else none
  | .destroyStream address =>
    match w.streams.lookup address with
    | none => none
    | some h =>
      match w.sessions.lookup h.session with
      | none => none
      | some active =>
        some ({ sessions := if active ≠ 0 then AssocMap.insert h.session (active - 1) w.sessions
                            else w.sessions
                streams := AssocMap.erase address w.streams }, none)
  | .destroySession session =>
    match w.sessions.lookup session with
    | none => none
    | some active =>
      if active ≠ 0 then some (w, none)
      else some ({ w with sessions := AssocMap.erase session w.sessions }, none)

/-- Calls in turn, and the batches that they push. -/
def World.run (w : World σ Event) : List (Call σ Chunk) → Option (World σ Event × List (Push Event))
  | [] => some (w, [])
  | call :: calls => do
    let (w, pushed) ← w.step lib convert call
    let (w, pushes) ← w.run calls
    return (w, pushed.toList ++ pushes)

/-- The client names live handles only, and gets addresses that are not in use. -/
def Call.Valid (w : World σ Event) : Call σ Chunk → Prop
  | .createSession session => w.sessions.lookup session = none
  | .createStream address session _ =>
    w.streams.lookup address = none ∧ w.sessions.lookup session ≠ none
  | .onStream address _ => w.streams.lookup address ≠ none
  | .destroyStream address => w.streams.lookup address ≠ none
  | .destroySession session => w.sessions.lookup session ≠ none

/-- The calls on one handle. -/
def callsOn (address : ℕ) (calls : List (Call σ Chunk)) : List (StreamCall Chunk) :=
  calls.filterMap fun
    | .onStream address' call => if address' = address then some call else none
    | _ => none

/-- The number of streams of a session. -/
def streamsOf (session : ℕ) (streams : List (ℕ × StreamHandle σ Event)) : ℕ :=
  streams.countP (·.2.session = session)

/-- Every session counts its streams, and every stream's session is live. -/
structure World.Counted (w : World σ Event) : Prop where
  unique_sessions : AssocMap.Unique w.sessions
  unique_streams : AssocMap.Unique w.streams
  active_eq : ∀ session active, w.sessions.lookup session = some active →
    active = streamsOf session w.streams
  session_live : ∀ address h, w.streams.lookup address = some h →
    w.sessions.lookup h.session ≠ none

/-- What a call can do that has a result. -/
inductive World.Steps (w : World σ Event) :
    Call σ Chunk → World σ Event → Option (Push Event) → Prop
  | createSession {session : ℕ} : w.sessions.lookup session = none →
      Steps w (.createSession session)
        { w with sessions := AssocMap.insert session 0 w.sessions } none
  | noStream {address session active : ℕ} : w.streams.lookup address = none →
      w.sessions.lookup session = some active →
      Steps w (.createStream address session none) w none
  | createStream {address session active : ℕ} {stream : σ} : w.streams.lookup address = none →
      w.sessions.lookup session = some active →
      Steps w (.createStream address session (some stream))
        { sessions := AssocMap.insert session (active + 1) w.sessions
          streams := AssocMap.insert address ⟨session, stream, [], false, false⟩ w.streams } none
  | onStream {address : ℕ} {call : StreamCall Chunk} {h : StreamHandle σ Event} :
      w.streams.lookup address = some h →
      ((h.call lib convert call).2.isSome → w.sessions.lookup h.session ≠ none) →
      Steps w (.onStream address call)
        { w with streams := AssocMap.insert address (h.call lib convert call).1 w.streams }
        ((h.call lib convert call).2.map fun events ↦ ⟨h.session, address, events⟩)
  | destroyStream {address active : ℕ} {h : StreamHandle σ Event} :
      w.streams.lookup address = some h → w.sessions.lookup h.session = some active →
      Steps w (.destroyStream address)
        { sessions := if active ≠ 0 then AssocMap.insert h.session (active - 1) w.sessions
                      else w.sessions
          streams := AssocMap.erase address w.streams } none
  | keepSession {session active : ℕ} : w.sessions.lookup session = some active → active ≠ 0 →
      Steps w (.destroySession session) w none
  | destroySession {session : ℕ} : w.sessions.lookup session = some 0 →
      Steps w (.destroySession session)
        { w with sessions := AssocMap.erase session w.sessions } none

variable {lib convert}

theorem contains_eq_true_iff {β : Type} {k : ℕ} {m : List (ℕ × β)} :
    AssocMap.contains k m = true ↔ m.lookup k ≠ none := by
  rw [AssocMap.contains_iff, ne_eq, AssocMap.lookup_eq_none_iff, not_forall]
  simp only [not_not]

variable {w w' : World σ Event} {call : Call σ Chunk} {streams : List (ℕ × StreamHandle σ Event)}

theorem World.step_eq_some_iff
    {pushed : Option (Push Event)} :
    w.step lib convert call = some (w', pushed) ↔ w.Steps lib convert call w' pushed := by
  constructor
  · intro h
    cases call with
    | createSession session =>
      simp only [World.step, contains_eq_true_iff] at h
      split_ifs at h with hlookup
      obtain ⟨rfl, rfl⟩ := Prod.mk.inj (Option.some.inj h)
      exact .createSession (not_not.mp hlookup)
    | createStream address session stream =>
      simp only [World.step, contains_eq_true_iff] at h
      split_ifs at h with hlookup
      cases hsession : w.sessions.lookup session with
      | none => simp [hsession] at h
      | some active =>
        cases stream with
        | none =>
          simp only [hsession] at h
          obtain ⟨rfl, rfl⟩ := Prod.mk.inj (Option.some.inj h)
          exact .noStream (not_not.mp hlookup) hsession
        | some stream =>
          simp only [hsession] at h
          obtain ⟨rfl, rfl⟩ := Prod.mk.inj (Option.some.inj h)
          exact .createStream (not_not.mp hlookup) hsession
    | onStream address call =>
      simp only [World.step, contains_eq_true_iff] at h
      cases hlookup : w.streams.lookup address with
      | none => simp [hlookup] at h
      | some handle =>
        simp only [hlookup] at h
        have hsteps := @World.Steps.onStream _ _ _ _ lib convert w address call handle hlookup
        cases hpushed : (handle.call lib convert call).2 with
        | none =>
          simp only [hpushed] at h hsteps
          obtain ⟨rfl, rfl⟩ := Prod.mk.inj (Option.some.inj h)
          exact hsteps (fun h ↦ (by cases h))
        | some events =>
          simp only [hpushed] at h hsteps
          split_ifs at h with hlive
          obtain ⟨rfl, rfl⟩ := Prod.mk.inj (Option.some.inj h)
          exact hsteps (fun _ ↦ hlive)
    | destroyStream address =>
      simp only [World.step] at h
      cases hlookup : w.streams.lookup address with
      | none => simp [hlookup] at h
      | some handle =>
        cases hsession : w.sessions.lookup handle.session with
        | none => simp [hlookup, hsession] at h
        | some active =>
          simp only [hlookup, hsession] at h
          obtain ⟨rfl, rfl⟩ := Prod.mk.inj (Option.some.inj h)
          exact .destroyStream hlookup hsession
    | destroySession session =>
      simp only [World.step] at h
      cases hsession : w.sessions.lookup session with
      | none => simp [hsession] at h
      | some active =>
        simp only [hsession] at h
        split_ifs at h with hactive
        · obtain ⟨rfl, rfl⟩ := Prod.mk.inj (Option.some.inj h)
          exact .keepSession hsession hactive
        · obtain ⟨rfl, rfl⟩ := Prod.mk.inj (Option.some.inj h)
          exact .destroySession (hsession.trans (congrArg some (not_not.mp hactive)))
  · intro h
    cases h with
    | createSession hlookup => simp [World.step, contains_eq_true_iff, hlookup]
    | noStream hlookup hsession => simp [World.step, contains_eq_true_iff, hlookup, hsession]
    | createStream hlookup hsession => simp [World.step, contains_eq_true_iff, hlookup, hsession]
    | @onStream address call handle hlookup hlive =>
      simp only [World.step, contains_eq_true_iff, hlookup]
      cases hpushed : (handle.call lib convert call).2 with
      | none => rfl
      | some events =>
        rw [hpushed] at hlive
        exact if_pos (hlive rfl)
    | destroyStream hlookup hsession => simp [World.step, hlookup, hsession]
    | keepSession hsession hactive => simp [World.step, hsession, hactive]
    | destroySession hsession => simp [World.step, hsession]

theorem streamsOf_insert_new {address : ℕ}
    (hnew : streams.lookup address = none) (h : StreamHandle σ Event) (session : ℕ) :
    streamsOf session (AssocMap.insert address h streams) =
      streamsOf session streams + if h.session = session then 1 else 0 := by
  have hperm := AssocMap.insert_perm address h streams
  rw [AssocMap.erase_of_lookup_eq_none hnew] at hperm
  rw [streamsOf, hperm.countP_eq, List.countP_cons]
  simp [streamsOf]

theorem streamsOf_erase {address : ℕ}
    {h : StreamHandle σ Event} (hunique : AssocMap.Unique streams)
    (hlookup : streams.lookup address = some h) (session : ℕ) :
    streamsOf session streams =
      streamsOf session (AssocMap.erase address streams)
        + if h.session = session then 1 else 0 := by
  rw [streamsOf, (AssocMap.perm_cons_erase hunique hlookup).countP_eq, List.countP_cons]
  simp [streamsOf]

theorem streamsOf_insert {address : ℕ}
    {h h' : StreamHandle σ Event} (hunique : AssocMap.Unique streams)
    (hlookup : streams.lookup address = some h) (hsession : h'.session = h.session)
    (session : ℕ) :
    streamsOf session (AssocMap.insert address h' streams) = streamsOf session streams := by
  rw [streamsOf_erase hunique hlookup, streamsOf,
    (AssocMap.insert_perm address h' streams).countP_eq, List.countP_cons]
  simp [streamsOf, hsession]

@[simp]
theorem StreamHandle.session_call (h : StreamHandle σ Event) (call : StreamCall Chunk) :
    (h.call lib convert call).1.session = h.session := by
  cases call with
  | feed chunk =>
    show (h.feed lib convert chunk).1.session = h.session
    rw [StreamHandle.feed]
    split_ifs
    · rfl
    · dsimp only
      split_ifs <;> rfl
  | finish =>
    show (h.finish lib convert).1.session = h.session
    rw [StreamHandle.finish]
    split_ifs
    · rfl
    · dsimp only
      split_ifs <;> rfl

/-! ### Every call counts -/

theorem World.counted_empty : ({} : World σ Event).Counted where
  unique_sessions := AssocMap.unique_nil
  unique_streams := AssocMap.unique_nil
  active_eq _ _ h := by cases h
  session_live _ _ h := by cases h

theorem World.Counted.steps
    {pushed : Option (Push Event)} (hw : w.Counted)
    (hsteps : w.Steps lib convert call w' pushed) : w'.Counted := by
  cases hsteps with
  | @createSession session hnew =>
    refine ⟨hw.unique_sessions.insert _ _, hw.unique_streams, ?_, ?_⟩
    · intro session' active hactive
      by_cases hsession : session' = session
      · subst hsession
        rw [AssocMap.lookup_insert_self] at hactive
        obtain rfl := Option.some.inj hactive
        -- a stream of this session would have kept it live
        refine (List.countP_eq_zero.mpr ?_).symm
        rintro ⟨address, h⟩ hmem hsession
        have hlookup := hw.unique_streams.lookup_eq_some_iff.mpr hmem
        obtain rfl := of_decide_eq_true hsession
        exact hw.session_live address h hlookup hnew
      · rw [AssocMap.lookup_insert_ne hsession] at hactive
        exact hw.active_eq session' active hactive
    · intro address h hlookup
      by_cases hsession : h.session = session
      · rw [hsession, AssocMap.lookup_insert_self]
        simp
      · rw [AssocMap.lookup_insert_ne hsession]
        exact hw.session_live address h hlookup
  | noStream _ _ => exact hw
  | @createStream address session active stream hnew hsession =>
    refine ⟨hw.unique_sessions.insert _ _, hw.unique_streams.insert _ _, ?_, ?_⟩
    · intro session' active' hactive
      rw [streamsOf_insert_new hnew]
      by_cases heq : session' = session
      · subst heq
        rw [AssocMap.lookup_insert_self] at hactive
        rw [if_pos rfl, ← hw.active_eq _ _ hsession]
        exact (Option.some.inj hactive).symm
      · rw [AssocMap.lookup_insert_ne heq] at hactive
        rw [if_neg (Ne.symm heq)]
        exact hw.active_eq session' active' hactive
    · intro address' h hlookup
      show (AssocMap.insert session (active + 1) w.sessions).lookup h.session ≠ none
      by_cases heq : h.session = session
      · rw [heq, AssocMap.lookup_insert_self]
        simp
      · rw [AssocMap.lookup_insert_ne heq]
        by_cases haddress : address' = address
        · subst haddress
          rw [AssocMap.lookup_insert_self] at hlookup
          obtain rfl := Option.some.inj hlookup
          exact absurd rfl heq
        · rw [AssocMap.lookup_insert_ne haddress] at hlookup
          exact hw.session_live address' h hlookup
  | @onStream address call h hlookup hlive =>
    refine ⟨hw.unique_sessions, hw.unique_streams.insert _ _, ?_, ?_⟩
    · intro session active hactive
      rw [streamsOf_insert hw.unique_streams hlookup (h.session_call call)]
      exact hw.active_eq session active hactive
    · intro address' h' hlookup'
      by_cases haddress : address' = address
      · subst haddress
        rw [AssocMap.lookup_insert_self] at hlookup'
        obtain rfl := Option.some.inj hlookup'
        rw [h.session_call]
        exact hw.session_live address' h hlookup
      · rw [AssocMap.lookup_insert_ne haddress] at hlookup'
        exact hw.session_live address' h' hlookup'
  | @destroyStream address active h hlookup hsession =>
    have hcount := streamsOf_erase hw.unique_streams hlookup
    have hactive : active ≠ 0 := by
      have hself := hcount h.session
      rw [if_pos rfl, ← hw.active_eq _ _ hsession] at hself
      omega
    simp only [if_pos hactive]
    refine ⟨hw.unique_sessions.insert _ _, hw.unique_streams.erase _, ?_, ?_⟩
    · intro session' active' hactive'
      have hother := hcount session'
      by_cases heq : session' = h.session
      · subst heq
        rw [AssocMap.lookup_insert_self] at hactive'
        obtain rfl := Option.some.inj hactive'
        rw [if_pos rfl, ← hw.active_eq _ _ hsession] at hother
        show active - 1 = streamsOf h.session (AssocMap.erase address w.streams)
        omega
      · rw [AssocMap.lookup_insert_ne heq] at hactive'
        rw [if_neg (Ne.symm heq), ← hw.active_eq _ _ hactive'] at hother
        exact hother
    · intro address' h' hlookup'
      by_cases haddress : address' = address
      · rw [haddress, AssocMap.lookup_erase_self] at hlookup'
        cases hlookup'
      · rw [AssocMap.lookup_erase_ne haddress] at hlookup'
        by_cases heq : h'.session = h.session
        · rw [heq, AssocMap.lookup_insert_self]
          simp
        · rw [AssocMap.lookup_insert_ne heq]
          exact hw.session_live address' h' hlookup'
  | keepSession _ _ => exact hw
  | @destroySession session hsession =>
    refine ⟨hw.unique_sessions.erase _, hw.unique_streams, ?_, ?_⟩
    · intro session' active hactive
      by_cases heq : session' = session
      · rw [heq, AssocMap.lookup_erase_self] at hactive
        cases hactive
      · rw [AssocMap.lookup_erase_ne heq] at hactive
        exact hw.active_eq session' active hactive
    · intro address h hlookup
      have hne : h.session ≠ session := by
        rintro rfl
        -- the count would not be zero
        have hcount := streamsOf_erase hw.unique_streams hlookup h.session
        rw [if_pos rfl, ← hw.active_eq _ _ hsession] at hcount
        omega
      rw [AssocMap.lookup_erase_ne hne]
      exact hw.session_live address h hlookup

theorem World.Counted.streamsOf_eq_zero_iff {w : World σ Event} (hw : w.Counted) {session : ℕ} :
    streamsOf session w.streams = 0 ↔
      ∀ address h, w.streams.lookup address = some h → h.session ≠ session := by
  rw [streamsOf, List.countP_eq_zero]
  constructor
  · intro hnone address h hlookup heq
    exact hnone (address, h) (AssocMap.mem_of_lookup hlookup) (decide_eq_true heq)
  · rintro hnone ⟨address, h⟩ hmem heq
    exact hnone address h (hw.unique_streams.lookup_eq_some_iff.mpr hmem) (of_decide_eq_true heq)

variable (lib convert) in
/-- In a world that counts, a valid call reads nothing that is not live. -/
theorem World.Counted.exists_steps {w : World σ Event} (hw : w.Counted)
    (hvalid : call.Valid w) : ∃ w' pushed, w.Steps lib convert call w' pushed := by
  cases call with
  | createSession session => exact ⟨_, _, .createSession hvalid⟩
  | createStream address session stream =>
    obtain ⟨hnew, hlive⟩ := hvalid
    obtain ⟨active, hsession⟩ := Option.ne_none_iff_exists'.mp hlive
    cases stream with
    | none => exact ⟨_, _, .noStream hnew hsession⟩
    | some stream => exact ⟨_, _, .createStream hnew hsession⟩
  | onStream address call =>
    obtain ⟨h, hlookup⟩ := Option.ne_none_iff_exists'.mp hvalid
    exact ⟨_, _, .onStream hlookup fun _ ↦ hw.session_live address h hlookup⟩
  | destroyStream address =>
    obtain ⟨h, hlookup⟩ := Option.ne_none_iff_exists'.mp hvalid
    obtain ⟨active, hsession⟩ :=
      Option.ne_none_iff_exists'.mp (hw.session_live address h hlookup)
    exact ⟨_, _, .destroyStream hlookup hsession⟩
  | destroySession session =>
    obtain ⟨active, hsession⟩ := Option.ne_none_iff_exists'.mp hvalid
    by_cases hactive : active = 0
    · subst hactive
      exact ⟨_, _, .destroySession hsession⟩
    · exact ⟨_, _, .keepSession hsession hactive⟩

/-- The worlds that calls lead to. -/
inductive World.Reached (lib : Library σ Chunk Record) (convert : Record → Option Event) :
    World σ Event → Prop
  | empty : Reached lib convert {}
  | step {w w' : World σ Event} {call : Call σ Chunk} {pushed : Option (Push Event)} :
      Reached lib convert w → w.step lib convert call = some (w', pushed) →
      Reached lib convert w'

theorem World.Reached.counted {w : World σ Event} (hw : w.Reached lib convert) : w.Counted := by
  induction hw with
  | empty => exact counted_empty
  | step _ hstep ih => exact ih.steps (step_eq_some_iff.mp hstep)

/-- **Sessions outlive their streams.** In every reachable world a call on live handles reads
nothing that is not live, whatever DataBind does; and a live session is destroyed by a call exactly
when no live stream pushes into it. -/
theorem reached_sessions_outlive_streams {w : World σ Event} (hw : w.Reached lib convert) :
    (∀ call : Call σ Chunk, call.Valid w → (w.step lib convert call).isSome = true) ∧
      ∀ session, w.sessions.lookup session ≠ none →
        ∃ w', w.step lib convert (.destroySession session) = some (w', none) ∧
          (w'.sessions.lookup session = none ↔
            ∀ address h, w.streams.lookup address = some h → h.session ≠ session) := by
  have hcounted := hw.counted
  refine ⟨fun call hvalid ↦ ?_, fun session hlive ↦ ?_⟩
  · obtain ⟨w', pushed, hsteps⟩ := hcounted.exists_steps lib convert hvalid
    rw [World.step_eq_some_iff.mpr hsteps]
    rfl
  · obtain ⟨active, hsession⟩ := Option.ne_none_iff_exists'.mp hlive
    have hactive := hcounted.active_eq session active hsession
    rw [← hcounted.streamsOf_eq_zero_iff, ← hactive]
    by_cases hzero : active = 0
    · subst hzero
      refine ⟨_, World.step_eq_some_iff.mpr (.destroySession hsession), ?_⟩
      simp [AssocMap.lookup_erase_self]
    · refine ⟨w, World.step_eq_some_iff.mpr (.keepSession hsession hzero), ?_⟩
      simp [hsession, hzero]

/-- A stream of numbers, each a record, that are counted on from chunk to chunk. -/
def numberedRecords : Library ℕ (List ℕ) ℕ where
  feed chunk count := ⟨count + chunk.length, chunk.zip (List.range' count chunk.length), id⟩
  finish count := ⟨count, [], id⟩

/-- A number other than zero is an event. -/
def nonZero (record : ℕ) : Option ℕ :=
  if record = 0 then none else some record

/-- A session with a stream. -/
def openStream : World ℕ ℕ :=
  { sessions := [(7, 1)], streams := [(1, { session := 7, stream := 0 })] }

theorem openStream_reached : openStream.Reached numberedRecords nonZero :=
  have hsession : World.Reached numberedRecords nonZero { sessions := [(7, 0)] } :=
    @World.Reached.step _ _ _ _ _ _ _ _ (.createSession 7) none .empty rfl
  @World.Reached.step _ _ _ _ _ _ _ _ (.createStream 1 7 (some 0)) none hsession rfl

theorem openStream_keeps_session :
    ∃ w', openStream.step numberedRecords nonZero (.destroySession 7) = some (w', none) ∧
      ¬ w'.sessions.lookup 7 = none := by
  obtain ⟨-, hdestroy⟩ := reached_sessions_outlive_streams openStream_reached
  obtain ⟨w', hstep, hlive⟩ := hdestroy 7 (by decide)
  exact ⟨w', hstep, fun h ↦ hlive.mp h 1 _ rfl rfl⟩

/-! ### A handle among others -/

/-- The batches that a handle pushes. -/
def pushesOf (address : ℕ) (pushes : List (Push Event)) : List (Push Event) :=
  pushes.filter (·.address = address)

/-- A call that does not destroy a handle changes it only as a call on it does, and pushes for it
only what that call pushes. -/
theorem World.Steps.handle
    {pushed : Option (Push Event)} (hsteps : w.Steps lib convert call w' pushed) {address : ℕ}
    {h : StreamHandle σ Event} (hlookup : w.streams.lookup address = some h)
    (hkept : call ≠ .destroyStream address) :
    w'.streams.lookup address = some (h.calls lib convert (callsOn address [call])).1 ∧
      pushesOf address pushed.toList = (h.calls lib convert (callsOn address [call])).2.map
        fun events ↦ ⟨h.session, address, events⟩ := by
  cases hsteps with
  | createSession _ => exact ⟨hlookup, rfl⟩
  | noStream _ _ => exact ⟨hlookup, rfl⟩
  | @createStream address' _ _ _ hnew _ =>
    have hne : address ≠ address' := by
      rintro rfl
      rw [hlookup] at hnew
      cases hnew
    exact ⟨(AssocMap.lookup_insert_ne hne _ _).trans hlookup, rfl⟩
  | @onStream address' call h' hlookup' _ =>
    by_cases heq : address' = address
    · subst heq
      obtain rfl := Option.some.inj (hlookup'.symm.trans hlookup)
      have hcalls : callsOn address' [@Call.onStream σ _ address' call] = [call] := by
        simp [callsOn]
      rw [hcalls]
      refine ⟨AssocMap.lookup_insert_self _ _ _, ?_⟩
      show pushesOf address' ((h'.call lib convert call).2.map _).toList
        = ((h'.call lib convert call).2.toList ++ []).map _
      cases (h'.call lib convert call).2 with
      | none => rfl
      | some events => simp [pushesOf]
    · have hcalls : callsOn address [@Call.onStream σ _ address' call] = [] := by
        simp [callsOn, heq]
      rw [hcalls]
      refine ⟨(AssocMap.lookup_insert_ne (Ne.symm heq) _ _).trans hlookup, ?_⟩
      cases (h'.call lib convert call).2 with
      | none => rfl
      | some events => simp [pushesOf, heq, StreamHandle.calls]
  | @destroyStream address' active h' _ _ =>
    have hne : address ≠ address' := by
      rintro rfl
      exact hkept rfl
    exact ⟨(AssocMap.lookup_erase_ne hne _).trans hlookup, rfl⟩
  | keepSession _ _ => exact ⟨hlookup, rfl⟩
  | destroySession _ => exact ⟨hlookup, rfl⟩

theorem StreamHandle.calls_append (h : StreamHandle σ Event)
    (calls calls' : List (StreamCall Chunk)) :
    h.calls lib convert (calls ++ calls') =
      (((h.calls lib convert calls).1.calls lib convert calls').1,
        (h.calls lib convert calls).2
          ++ ((h.calls lib convert calls).1.calls lib convert calls').2) := by
  induction calls generalizing h with
  | nil => rfl
  | cons call calls ih => simp only [List.cons_append, StreamHandle.calls, ih, List.append_assoc]

@[simp]
theorem StreamHandle.session_calls (h : StreamHandle σ Event) (calls : List (StreamCall Chunk)) :
    (h.calls lib convert calls).1.session = h.session := by
  induction calls generalizing h with
  | nil => rfl
  | cons call calls ih => exact (ih _).trans (h.session_call call)

/-- However the calls on other handles and on sessions come in between, a handle goes through the
calls on it alone. -/
theorem World.run_handle {calls : List (Call σ Chunk)}
    {pushes : List (Push Event)} (hrun : w.run lib convert calls = some (w', pushes))
    {address : ℕ} {h : StreamHandle σ Event} (hlookup : w.streams.lookup address = some h)
    (hkept : .destroyStream address ∉ calls) :
    pushesOf address pushes = (h.calls lib convert (callsOn address calls)).2.map
      fun events ↦ ⟨h.session, address, events⟩ := by
  induction calls generalizing w h pushes with
  | nil =>
    obtain ⟨-, rfl⟩ := Prod.mk.inj (Option.some.inj hrun)
    rfl
  | cons call calls ih =>
    obtain ⟨⟨w₁, pushed⟩, hstep, hrest⟩ := Option.bind_eq_some_iff.mp hrun
    obtain ⟨⟨w₂, pushes'⟩, hrun', hresult⟩ := Option.bind_eq_some_iff.mp hrest
    obtain ⟨rfl, rfl⟩ := Prod.mk.inj (Option.some.inj hresult)
    obtain ⟨hcall, hcalls⟩ := not_or.mp (mt List.mem_cons.mpr hkept)
    obtain ⟨hlookup₁, hpushed⟩ :=
      (step_eq_some_iff.mp hstep).handle hlookup (Ne.symm hcall)
    have hlater := ih hrun' hlookup₁ hcalls
    have hcons : callsOn address (call :: calls) =
        callsOn address [call] ++ callsOn address calls :=
      List.filterMap_append (l := [call])
    rw [hcons, StreamHandle.calls_append, List.map_append, ← hpushed]
    rw [StreamHandle.session_calls] at hlater
    rw [← hlater]
    exact List.filter_append _ _

/-- **A stream delivers its records once.** Let a stream be created and then any calls follow, on
it and on other handles, that do not destroy it. The handle pushes at most one batch, into its own
session, and it pushes some events exactly when the calls on it feed chunks and then finish, all of
them accepted, and the events are those of the records in their order. -/
theorem created_stream_delivers (hlib : lib.StopsOnRefusal) {w w' : World σ Event}
    {address session : ℕ} {stream : σ} {calls : List (Call σ Chunk)} {pushes : List (Push Event)}
    (hrun : w.run lib convert (.createStream address session (some stream) :: calls) =
      some (w', pushes))
    (hkept : .destroyStream address ∉ calls) :
    (pushesOf address pushes).length ≤ 1 ∧
      ∀ push, push ∈ pushesOf address pushes ↔ push.address = address ∧
        push.session = session ∧
        Delivers lib convert 0 stream (callsOn address calls) push.events := by
  obtain ⟨⟨w₁, pushed⟩, hstep, hrest⟩ := Option.bind_eq_some_iff.mp hrun
  obtain ⟨⟨w₂, pushes'⟩, hrun', hresult⟩ := Option.bind_eq_some_iff.mp hrest
  obtain ⟨-, rfl⟩ := Prod.mk.inj (Option.some.inj hresult)
  cases World.step_eq_some_iff.mp hstep with
  | createStream _ _ =>
    have hpushes := World.run_handle hrun' (AssocMap.lookup_insert_self _ _ _) hkept
    rw [Option.toList_none, List.nil_append, hpushes, List.length_map]
    refine ⟨StreamHandle.length_calls_le _ _, fun push ↦ ?_⟩
    rw [List.mem_map]
    constructor
    · rintro ⟨events, hevents, rfl⟩
      obtain ⟨events, rfl, hdelivers⟩ := (StreamHandle.mem_calls_iff hlib rfl).mp hevents
      exact ⟨rfl, rfl, hdelivers⟩
    · rintro ⟨haddress, hsession, hdelivers⟩
      obtain ⟨session', address', events⟩ := push
      obtain rfl : address' = address := haddress
      obtain rfl : session' = session := hsession
      exact ⟨events, (StreamHandle.mem_calls_iff hlib rfl).mpr ⟨events, rfl, hdelivers⟩, rfl⟩

/-- Calls on a stream, with another stream of the session that fails in between. -/
def interleavedCalls : List (Call ℕ (List ℕ)) :=
  [.createStream 2 7 (some 0), .onStream 1 (.feed [4, 5]), .onStream 2 (.feed [8, 0]),
    .destroyStream 2, .onStream 1 (.feed [6]), .onStream 1 .finish, .onStream 1 .finish]

theorem interleavedCalls_deliver :
    ∃ w' pushes, World.run numberedRecords nonZero { sessions := [(7, 0)] }
        (.createStream 1 7 (some 0) :: interleavedCalls) = some (w', pushes) ∧
      (pushesOf 1 pushes).length ≤ 1 ∧ ⟨7, 1, [4, 5, 6]⟩ ∈ pushesOf 1 pushes := by
  obtain ⟨w', pushes, hrun⟩ : ∃ w' pushes, World.run numberedRecords nonZero
      { sessions := [(7, 0)] } (.createStream 1 7 (some 0) :: interleavedCalls) =
      some (w', pushes) := ⟨_, _, rfl⟩
  obtain ⟨hlength, hmem⟩ := created_stream_delivers ⟨fun _ _ ↦ rfl, fun _ ↦ rfl⟩ hrun
    (by simp [interleavedCalls])
  have hsix := @Parses.feed _ _ _ numberedRecords 2 [6] [] _ rfl (.finish rfl)
  have hparses := @Parses.feed _ _ _ numberedRecords 0 [4, 5] [[6]] _ rfl hsix
  exact ⟨w', pushes, hrun, hlength,
    (hmem _).mpr ⟨rfl, rfl, [[4, 5], [6]], [.finish], _, rfl, hparses, rfl, rfl⟩⟩

end Worlds

end DataBindStreams

end RulesForge
