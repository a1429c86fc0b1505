import Mathlib.Data.List.Infix
import Mathlib.Data.List.Nodup
import Mathlib.Data.List.Perm.Basic

/-!
# The session pool

`SessionPool` (`include/engine/session_pool.hpp`) as a step relation. The pool owns sessions in slots
and queues the addresses of those that are free. `acquire` is one step under the lock; `release` is
the creation of a fresh session, **without the lock**, and then a step under it, which swaps the
fresh session into the slot of the released one and queues it, or queues the released one again
where there is none. The steps of any number of clients interleave in any order.

The queue, the sessions that clients hold and those that are being released are together the
sessions of the slots, each once (`PoolInv`). The contents of sessions are left out, so a
reset does nothing here.
-/

namespace RulesForge

/-- The address of a session. A freed address may be given out again. -/
abbrev SessionPtr := ℕ

/-- The slots `pool_` and the queue `available_`. -/
structure SessionPool where
  pool : List SessionPtr := []
  available : List SessionPtr := []
  deriving DecidableEq, Repr

namespace SessionPool

/-- One round of the loop of the constructor: what `create_session` gave, if it gave a session. -/
def preallocate (s : SessionPool) : Option SessionPtr → SessionPool
  | some session =>
    { pool := s.pool ++ [session], available := s.available ++ [session] }
  | none => s

/-- The constructor, which throws where no session could be created. -/
def construct (created : List (Option SessionPtr)) : Option SessionPool :=
  let s := created.foldl preallocate {}
  if s.pool = [] then none else some s

/-- `acquire` under the lock. A blocking call waits for a session, a non-blocking call returns
none where there is no session. -/
def acquire (s : SessionPool) : Option SessionPtr × SessionPool :=
  match s.available with
  | [] => (none, s)
  | session :: rest => (some session, { s with available := rest })

/-- The part of `release` under the lock. The replacement is moved into the first slot that owns
the session, if there is one; else the session itself is reset and queued. -/
def releaseLocked (session : SessionPtr) (replacement : Option SessionPtr) (s : SessionPool) :
    SessionPool :=
  match replacement with
  | some fresh =>
    if session ∈ s.pool then
      { pool := s.pool.replace session fresh, available := s.available ++ [fresh] }
    else { s with available := s.available ++ [session] }
  | none => { s with available := s.available ++ [session] }

end SessionPool

/-! ### Clients -/

/-- Where a call of `release` stands: `create_session` has not returned, or it has, with a
session or without one. -/
inductive ReleaseStage where
  | creating
  | created (replacement : Option SessionPtr)
  deriving DecidableEq, Repr

/-- A pool with its clients: the sessions that they hold and the calls of `release` that are on
their way. -/
structure PoolState (Client : Type) where
  pool : SessionPool
  held : List (Client × SessionPtr) := []
  releasing : List (Client × SessionPtr × ReleaseStage) := []

namespace PoolState

variable {Client : Type} (s : PoolState Client)

/-- The replacements that `release` has created and not yet moved into the pool. -/
def replacements : List SessionPtr :=
  s.releasing.filterMap fun call ↦
    match call.2.2 with
    | .created replacement => replacement
    | .creating => none

/-- The sessions that exist. -/
def live : List SessionPtr := s.pool.pool ++ s.replacements

/-- The sessions that are held or being released. -/
def out : List SessionPtr := s.held.map Prod.snd ++ s.releasing.map fun call ↦ call.2.1

/-- A client holds a session until its call of `release` has returned it. -/
def Holds (client : Client) (session : SessionPtr) : Prop :=
  (client, session) ∈ s.held ∨ ∃ stage, (client, session, stage) ∈ s.releasing

end PoolState

/-- One step of one client. -/
inductive PoolStep {Client : Type} : PoolState Client → PoolState Client → Prop
  /-- `acquire`, blocking or not, gets a session. -/
  | acquire {s : PoolState Client} (client : Client) (session : SessionPtr) (pool : SessionPool) :
      s.pool.acquire = (some session, pool) →
      PoolStep s { s with pool := pool, held := (client, session) :: s.held }
  /-- A non-blocking `acquire` returns without a session. -/
  | acquireNone {s : PoolState Client} (pool : SessionPool) : s.pool.acquire = (none, pool) →
      PoolStep s { s with pool := pool }
  /-- A client calls `release` with a session that it holds. -/
  | release {s : PoolState Client} (client : Client) (session : SessionPtr)
      (before after : List (Client × SessionPtr)) : s.held = before ++ (client, session) :: after →
      PoolStep s
        { s with
          held := before ++ after
          releasing := (client, session, .creating) :: s.releasing }
  /-- `create_session` returns a session that is none of the live ones, or fails. -/
  | create {s : PoolState Client} (client : Client) (session : SessionPtr)
      (replacement : Option SessionPtr) (before after : List (Client × SessionPtr × ReleaseStage)) :
      s.releasing = before ++ (client, session, .creating) :: after →
      (∀ fresh ∈ replacement, fresh ∉ s.live) →
      PoolStep s
        { s with releasing := before ++ (client, session, .created replacement) :: after }
  /-- The part of `release` under the lock. -/
  | locked {s : PoolState Client} (client : Client) (session : SessionPtr)
      (replacement : Option SessionPtr) (before after : List (Client × SessionPtr × ReleaseStage)) :
      s.releasing = before ++ (client, session, .created replacement) :: after →
      PoolStep s
        { s with
          pool := s.pool.releaseLocked session replacement
          releasing := before ++ after }

/-- The states of a pool from its constructor on, whose calls of `create_session` give each a session
that did not exist before, or fail. -/
inductive PoolRun {Client : Type} : PoolState Client → Prop
  | construct {created : List (Option SessionPtr)} {pool : SessionPool} :
      (created.filterMap id).Nodup → SessionPool.construct created = some pool →
      PoolRun { pool := pool }
  | step {s s' : PoolState Client} : PoolRun s → PoolStep s s' → PoolRun s'

/-! ### The invariant -/

/-- **The invariant of the pool**: the sessions of the slots are, each once, in the queue or out,
and the replacements on their way are other sessions. -/
structure PoolInv {Client : Type} (s : PoolState Client) : Prop where
  live : s.live.Nodup
  perm : (s.pool.available ++ s.out).Perm s.pool.pool

namespace PoolInv

variable {Client : Type} {s s' : PoolState Client}

theorem nodup (h : PoolInv s) : (s.pool.available ++ s.out).Nodup :=
  h.perm.nodup_iff.mpr (List.nodup_append.mp h.live).1

theorem mem_pool (h : PoolInv s) {session : SessionPtr} (hin : session ∈ s.out) :
    session ∈ s.pool.pool :=
  h.perm.mem_iff.mp (List.mem_append_right _ hin)

/-- The constructor queues all the sessions that it owns. -/
theorem construct {created : List (Option SessionPtr)} {pool : SessionPool}
    (hfresh : (created.filterMap id).Nodup) (h : SessionPool.construct created = some pool) :
    PoolInv ({ pool := pool } : PoolState Client) := by
  have hloop : ∀ (created : List (Option SessionPtr)) (s : SessionPool),
      s.available = s.pool → created.foldl SessionPool.preallocate s =
        { pool := s.pool ++ created.filterMap id, available := s.pool ++ created.filterMap id } := by
    intro created
    induction created with
    | nil =>
      intro s hs
      cases s
      simp_all
    | cons session created ih =>
      intro s hs
      rw [List.foldl_cons]
      cases session with
      | none => exact ih s hs
      | some session =>
        rw [ih _ (by simp [SessionPool.preallocate, hs])]
        simp [SessionPool.preallocate]
  unfold SessionPool.construct at h
  rw [hloop created {} rfl] at h
  dsimp only at h
  split at h
  · cases h
  · obtain rfl := Option.some.inj h
    refine ⟨?_, ?_⟩
    · simpa [PoolState.live, PoolState.replacements] using hfresh
    · simp [PoolState.out]

/-- A swapped slot: the first occurrence of a session is the fresh one. -/
theorem replace_perm {sessions : List SessionPtr} {session : SessionPtr} (fresh : SessionPtr)
    (hin : session ∈ sessions) :
    (sessions.replace session fresh).Perm (fresh :: sessions.erase session) := by
  induction sessions with
  | nil => exact absurd hin List.not_mem_nil
  | cons first rest ih =>
    by_cases heq : first = session
    · subst heq
      simp
    · have hrest : session ∈ rest := (List.mem_cons.mp hin).resolve_left (Ne.symm heq)
      rw [List.replace_cons, beq_false_of_ne (Ne.symm heq), List.erase_cons_tail (by simpa using heq)]
      exact ((ih hrest).cons first).trans (.swap fresh first _)

/-- **One step keeps the invariant.** -/
theorem step (h : PoolInv s) (hstep : PoolStep s s') : PoolInv s' := by
  cases hstep with
  | acquire client session pool hacquire =>
    obtain ⟨rest, havailable, rfl⟩ : ∃ rest, s.pool.available = session :: rest ∧
        pool = { s.pool with available := rest } := by
      unfold SessionPool.acquire at hacquire
      split at hacquire
      · cases hacquire
      · next first rest heq =>
        obtain ⟨hsession, hpool⟩ := Prod.mk.inj hacquire
        exact ⟨rest, heq.trans (by rw [Option.some.inj hsession]), hpool.symm⟩
    refine ⟨h.live, List.Perm.trans ?_ h.perm⟩
    -- The session goes from the head of the queue to those that are out.
    rw [havailable]
    show (rest ++ session :: s.out).Perm (session :: rest ++ s.out)
    exact List.perm_middle
  | acquireNone pool hacquire =>
    have hpool : pool = s.pool := by
      unfold SessionPool.acquire at hacquire
      split at hacquire
      · exact (Prod.mk.inj hacquire).2.symm
      · cases hacquire
    rw [hpool]
    exact h
  | release client session before after hheld =>
    refine ⟨h.live, List.Perm.trans (List.Perm.append_left _ ?_) h.perm⟩
    unfold PoolState.out
    rw [hheld]
    simp only [List.map_append, List.map_cons, List.append_assoc, List.cons_append]
    refine List.Perm.append_left _ ?_
    exact List.perm_middle
  | create client session replacement before after hreleasing hfresh =>
    have hlive : s.live = s.pool.pool ++ PoolState.replacements { s with releasing := before } ++
        PoolState.replacements { s with releasing := after } := by
      unfold PoolState.live PoolState.replacements
      rw [hreleasing]
      simp
    refine ⟨?_, ?_⟩
    · have hlive' : PoolState.live
          { s with releasing := before ++ (client, session, .created replacement) :: after } =
          s.pool.pool ++ PoolState.replacements { s with releasing := before } ++
            (replacement.toList ++ PoolState.replacements { s with releasing := after }) := by
        unfold PoolState.live PoolState.replacements
        cases replacement <;> simp
      rw [hlive']
      have hnodup := h.live
      rw [hlive] at hnodup hfresh
      cases replacement with
      | none => simpa using hnodup
      | some fresh =>
        refine (List.perm_middle.nodup_iff).mpr (List.nodup_cons.mpr ⟨?_, hnodup⟩)
        exact hfresh fresh rfl
    · have hout : PoolState.out
          { s with releasing := before ++ (client, session, .created replacement) :: after } =
          s.out := by
        unfold PoolState.out
        rw [hreleasing]
        simp
      rw [hout]
      exact h.perm
  | locked client session replacement before after hreleasing =>
    set s₁ : PoolState Client := { s with releasing := before ++ after } with hs₁
    have hout : s.out.Perm (session :: s₁.out) := by
      unfold PoolState.out
      rw [hreleasing, hs₁]
      simp only [List.map_append, List.map_cons]
      refine (List.Perm.append_left _ List.perm_middle).trans ?_
      exact List.perm_middle
    have hin : session ∈ s.pool.pool := h.mem_pool (hout.mem_iff.mpr List.mem_cons_self)
    have hperm : (session :: (s.pool.available ++ s₁.out)).Perm s.pool.pool :=
      (List.perm_middle.symm.trans (List.Perm.append_left _ hout.symm)).trans h.perm
    have hlive : s.live.Perm (replacement.toList ++ (s.pool.pool ++ s₁.replacements)) := by
      unfold PoolState.live PoolState.replacements
      rw [hreleasing, hs₁]
      cases replacement with
      | none => simp
      | some fresh =>
        simp only [List.filterMap_append, List.filterMap_cons]
        refine (List.Perm.append_left _ List.perm_middle).trans ?_
        exact List.perm_middle
    have hnodup := hlive.nodup_iff.mp h.live
    cases replacement with
    | none =>
      refine ⟨hnodup, ?_⟩
      show (s.pool.available ++ [session] ++ s₁.out).Perm s.pool.pool
      rw [List.append_assoc]
      exact List.perm_middle.trans hperm
    | some fresh =>
      have hpool : s.pool.releaseLocked session (some fresh) =
          { pool := s.pool.pool.replace session fresh,
            available := s.pool.available ++ [fresh] } := by
        simp [SessionPool.releaseLocked, hin]
      have hswap := replace_perm fresh hin
      rw [hpool]
      refine ⟨?_, ?_⟩
      · -- The slot of the old session is now that of the replacement.
        show (s.pool.pool.replace session fresh ++ s₁.replacements).Nodup
        refine (List.Perm.append_right _ hswap).nodup_iff.mpr ?_
        refine hnodup.sublist ?_
        exact ((List.erase_sublist).append_right _).cons_cons fresh
      · show (s.pool.available ++ [fresh] ++ s₁.out).Perm (s.pool.pool.replace session fresh)
        rw [List.append_assoc]
        refine (List.perm_middle.trans (List.Perm.cons fresh ?_)).trans hswap.symm
        simpa using hperm.erase session

end PoolInv

theorem PoolRun.inv {Client : Type} {s : PoolState Client} (h : PoolRun s) : PoolInv s := by
  induction h with
  | construct hfresh hpool => exact .construct hfresh hpool
  | step _ hstep ih => exact ih.step hstep

/-- **No session is given to two clients.** In every interleaving, every session that is queued or
held is owned by a slot, no session is held by two clients or twice by one, queued twice, or both
held and queued, and the queued sessions with those held are as many as the slots. -/
theorem pool_linear {Client : Type} {s : PoolState Client} (h : PoolRun s) :
    (∀ session ∈ s.pool.available, session ∈ s.pool.pool) ∧
    (∀ client session, s.Holds client session → session ∈ s.pool.pool) ∧
    (∀ client client' session, s.Holds client session → s.Holds client' session →
      client = client') ∧
    s.out.Nodup ∧ s.pool.available.Nodup ∧
    (∀ client session, s.Holds client session → session ∉ s.pool.available) ∧
    s.pool.available.length + s.out.length = s.pool.pool.length := by
  have hinv := h.inv
  obtain ⟨havailable, hout, hdisjoint⟩ := List.nodup_append.mp hinv.nodup
  -- What clients hold, with the client that holds it.
  set claims : List (Client × SessionPtr) :=
    s.held ++ s.releasing.map fun call ↦ (call.1, call.2.1) with hclaims
  have hsnd : claims.map Prod.snd = s.out := by
    simp [hclaims, PoolState.out]
  have hholds : ∀ {client session}, s.Holds client session → (client, session) ∈ claims := by
    rintro client session (hheld | ⟨stage, hreleasing⟩)
    · exact List.mem_append_left _ hheld
    · exact List.mem_append_right _ (List.mem_map.mpr ⟨_, hreleasing, rfl⟩)
  have hin : ∀ {client session}, s.Holds client session → session ∈ s.out := by
    intro client session h
    rw [← hsnd]
    exact List.mem_map.mpr ⟨_, hholds h, rfl⟩
  refine ⟨fun session hs ↦ hinv.perm.mem_iff.mp (List.mem_append_left _ hs),
    fun client session h ↦ hinv.mem_pool (hin h), fun client client' session h h' ↦ ?_, hout,
    havailable, fun client session h hs ↦ hdisjoint session hs session (hin h) rfl, ?_⟩
  · rw [← hsnd] at hout
    exact congrArg Prod.fst (List.inj_on_of_nodup_map hout (hholds h) (hholds h') rfl)
  · rw [← List.length_append]
    exact hinv.perm.length_eq

/-- One of two clients is releasing its session and has created a fresh one. -/
def sharedPool : PoolState ℕ where
  pool := { pool := [1, 2], available := [] }
  held := [(1, 2)]
  releasing := [(0, 1, .created (some 3))]

theorem sharedPool_run : PoolRun sharedPool := by
  have hstart : PoolRun ({ pool := { pool := [1, 2], available := [1, 2] } } : PoolState ℕ) :=
    @PoolRun.construct ℕ [some 1, none, some 2] _ (by decide) rfl
  have hfirst := hstart.step (.acquire 0 1 _ rfl)
  have hsecond := hfirst.step (.acquire 1 2 _ rfl)
  have hrelease := hsecond.step (.release 0 1 [(1, 2)] [] rfl)
  exact hrelease.step (.create 0 1 (some 3) [] [] rfl (by decide))

/-- The session that is being released is still owned, and counts as out. -/
theorem pool_linear_shared :
    1 ∈ sharedPool.pool.pool ∧
      sharedPool.pool.available.length + sharedPool.out.length = sharedPool.pool.pool.length := by
  obtain ⟨-, howned, -, -, -, -, hlength⟩ := pool_linear sharedPool_run
  exact ⟨howned 0 1 (.inr ⟨_, List.mem_singleton_self _⟩), hlength⟩

end RulesForge
