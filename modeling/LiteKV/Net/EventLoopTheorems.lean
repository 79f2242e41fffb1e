/-
LiteKV.Net.EventLoopTheorems — what a turn of the event loop keeps, and a run.

`ready_cases` is the one step lemma: an entry of `ep_events_` for a live
session serves it (`Serves`) or closes it (`Leaves`), and one for the
listening socket opens a session (`Opens`) or refuses it (`Refuses`). Each of
the four keeps the invariant `Inv` of the process, which is about the tables,
the descriptors and epoll, and its account `Accounts`, which ties the state to
the effects so far. `Kept.run` is the rule for the runs in which the kernel
reports what it promises (`Conforms`), and `run_keeps` its first use.
-/
import LiteKV.Net.EventLoop
import LiteKV.Net.ServerTheorems
import LiteKV.Net.UtilsTheorems
import LiteKV.Net.ProtocolTheorems

namespace LiteKV

open Lib Lib.AssocList Lib.Run

/-! ## The tables of the server -/

namespace Server

/-- A step that neither opens nor closes a session. -/
structure SameSessions (sv sv' : Server) : Prop where
  wellFormed : sv.WellFormed → sv'.WellFormed
  ptr : ∀ n, (find? n sv'.sessions).map Session.ptr = (find? n sv.sessions).map Session.ptr
  next : sv'.nextSessionId = sv.nextSessionId
  reached : ∃ events, sv' = sv.run events

theorem SameSessions.refl (sv : Server) : SameSessions sv sv := ⟨id, fun _ => rfl, rfl, [], rfl⟩

theorem SameSessions.trans {sv₁ sv₂ sv₃ : Server} (h : SameSessions sv₁ sv₂)
    (h' : SameSessions sv₂ sv₃) : SameSessions sv₁ sv₃ := by
  obtain ⟨es, he⟩ := h.reached
  obtain ⟨es', he'⟩ := h'.reached
  refine ⟨h'.wellFormed ∘ h.wellFormed, fun n => (h'.ptr n).trans (h.ptr n), h'.next.trans h.next,
    es ++ es', ?_⟩
  rw [run, List.foldl_append]
  rw [run] at he he'
  rw [← he, ← he']

theorem Replaces.ptr {sv sv' : Server} {name : Bytes} {sess sess' : Session}
    (h : Replaces sv name sess' sv') (hf : find? name sv.sessions = some sess)
    (hp : sess'.ptr = sess.ptr) (n : Bytes) :
    (find? n sv'.sessions).map Session.ptr = (find? n sv.sessions).map Session.ptr := by
  rw [h.find]
  split
  · rename_i hn
    rw [hn, hf, Option.map_some, Option.map_some, hp]
  · rfl

theorem subscribe_fst {sv : Server} {name : Bytes} {sess : Session}
    (hf : find? name sv.sessions = some sess) (argv : List Bytes) :
    (sv.pubSubSubscribeCommand name argv).1 = (argv.drop 1).foldl (subscribeTo name) sv := by
  rw [← subscribe_step hf]
  simp only [step, hf, Option.isSome_some, if_true]

theorem unsubscribe_fst {sv : Server} {name : Bytes} {sess : Session}
    (hf : find? name sv.sessions = some sess) (argv order : List Bytes) :
    (sv.pubSubUnsubscribeCommand name argv order).1 = if argv = [] then sv
      else (sv.channelsOf name argv order).foldl (unsubscribeFrom name) sv := by
  rw [← unsubscribe_step hf]
  simp only [step, hf, Option.isSome_some, if_true]

theorem subscribe_sameSessions {sv : Server} {name : Bytes} {sess : Session}
    (hf : find? name sv.sessions = some sess) (argv : List Bytes) :
    SameSessions sv (sv.pubSubSubscribeCommand name argv).1 := by
  obtain ⟨sess', hrep, hptr, -⟩ := subscribeTo_all (argv.drop 1) hf
  rw [subscribe_fst hf]
  refine ⟨fun hwf => subscribe_wellFormed hwf hf _, hrep.ptr hf hptr, hrep.next,
    [.subscribe name argv], ?_⟩
  exact (subscribe_step hf argv).symm

theorem unsubscribe_sameSessions {sv : Server} {name : Bytes} {sess : Session}
    (hf : find? name sv.sessions = some sess) (argv order : List Bytes) :
    SameSessions sv (sv.pubSubUnsubscribeCommand name argv order).1 := by
  have hfold := unsubscribe_step hf argv order
  rw [unsubscribe_fst hf]
  by_cases hargv : argv = []
  · rw [if_pos hargv]
    exact .refl sv
  · rw [if_neg hargv] at hfold ⊢
    obtain ⟨sess', hrep, hptr, -⟩ := unsubscribeFrom_all (sv.channelsOf name argv order) hf
    exact ⟨fun hwf => unsubscribe_wellFormed hwf hf _, hrep.ptr hf hptr, hrep.next,
      [.unsubscribe name argv order], hfold.symm⟩

/-- The commands about subscriptions close no session. -/
theorem answer_sameSessions {sv : Server} {name : Bytes} {sess : Session}
    (hf : find? name sv.sessions = some sess) (env : CommandEnv) (argv : List Bytes) :
    SameSessions sv (sv.answer name env argv).server := by
  unfold answer
  split
  · exact .refl sv
  · exact subscribe_sameSessions hf argv
  · exact unsubscribe_sameSessions hf argv env.order
  · exact .refl sv
  · exact .refl sv

/-- `ReadProc` at the end of a connection. -/
theorem readClose_wellFormed {sv : Server} (hwf : sv.WellFormed) (name : Bytes) :
    (sv.readClose name).WellFormed ∧ (sv.readClose name).sessions = erase name sv.sessions ∧
      (sv.readClose name).nextSessionId = sv.nextSessionId := by
  unfold readClose
  cases hf : find? name sv.sessions with
  | none =>
      refine ⟨hwf, ?_, rfl⟩
      rw [find?_eq_none] at hf
      rw [erase_eq_filter hwf.nodup, List.filter_eq_self.mpr]
      rintro e he
      rw [decide_eq_true_eq]
      rintro rfl
      exact hf (List.mem_map_of_mem he)
  | some sess =>
      obtain ⟨hs, hn, hl⟩ := remove_all name sess.subscribedChannels sv
      dsimp only
      have hsess : erase name (sess.subscribedChannels.foldl
          (·.removeSessionFromSubscription · name) sv).sessions
            = erase name sv.sessions := by rw [hs]
      refine ⟨erased_wellFormed hwf hsess hn fun chan p hp => ?_, hsess, hn⟩
      change p ∈ (sess.subscribedChannels.foldl
        (·.removeSessionFromSubscription · name) sv).getSubscriptionSessions chan at hp
      rw [hl] at hp
      split at hp
      · exact List.mem_of_mem_filter hp
      · exact hp

end Server

/-! ## What a run did -/

/-- What is written to a socket at once. -/
inductive Wire where
  /-- By `WriteProc`, from the write buffer. -/
  | buffered (bytes : Bytes)
  /-- By PUBLISH, past it. -/
  | message (bytes : Bytes)

namespace Wire

def bytes : Wire → Bytes
  | buffered bytes => bytes
  | message bytes => bytes

/-- The bytes of replies. -/
def replies : Wire → Bytes
  | buffered bytes => bytes
  | message _ => []

end Wire

namespace Effect

/-- The session an effect is about. What PUBLISH writes is written past the
session. -/
def session : Effect → Option SessionPtr
  | .accepted p | .received p _ | .command p _ _ _ | .malformed p | .sent p _ | .closed p => some p
  | .relayed _ _ | .timers _ _ => none

/-- What an effect is for the engine. -/
def event : Effect → Option Event
  | .command _ ctx argv _ => some (.command ctx argv)
  | .timers now stale => some (.timers now stale)
  | _ => none

/-- What an effect puts into the write buffer of a session. -/
def reply? (p : SessionPtr) : Effect → Option Bytes
  | .command q _ _ reply => if q = p then some reply else none
  | .malformed q => if q = p then some wrongReqMsg else none
  | _ => none

/-- What it takes out of it, for the socket. -/
def output (p : SessionPtr) : Effect → Bytes
  | .sent q bytes => if q = p then bytes else []
  | _ => []

/-- What it writes to the socket of the session. -/
def wire? (p : SessionPtr) : Effect → Option Wire
  | .sent q bytes => if q = p then some (.buffered bytes) else none
  | .relayed q bytes => if q = p then some (.message bytes) else none
  | _ => none

/-- The chunk it has read from the socket. -/
def chunk? (p : SessionPtr) : Effect → Option Bytes
  | .received q chunk => if q = p then some chunk else none
  | _ => none

/-- The request it has handled. -/
def request? (p : SessionPtr) : Effect → Option (List Bytes)
  | .command q _ argv _ => if q = p then some argv else none
  | _ => none

end Effect

/-- The commands and timers of a run, for the engine alone. -/
def history (es : List Effect) : List Event := es.filterMap Effect.event

/-- The replies to a session, one for each request or error. -/
def repliesTo (p : SessionPtr) (es : List Effect) : List Bytes := es.filterMap (Effect.reply? p)

/-- What has left the write buffer of a session. -/
def flushed (p : SessionPtr) (es : List Effect) : Bytes := es.flatMap (Effect.output p)

/-- All that was written to the socket of a session, piece by piece. -/
def sentTo (p : SessionPtr) (es : List Effect) : List Wire := es.filterMap (Effect.wire? p)

/-- What a session was read from. -/
def chunksOf (p : SessionPtr) (es : List Effect) : List Bytes := es.filterMap (Effect.chunk? p)

/-- The requests of a session that were handled. -/
def requestsOf (p : SessionPtr) (es : List Effect) : List (List Bytes) :=
  es.filterMap (Effect.request? p)

section

variable {p : SessionPtr} {es es' : List Effect}

@[simp] theorem repliesTo_append : repliesTo p (es ++ es') = repliesTo p es ++ repliesTo p es' :=
  List.filterMap_append

@[simp] theorem flushed_append : flushed p (es ++ es') = flushed p es ++ flushed p es' :=
  List.flatMap_append

/-- Without the messages, what is on the socket has come from the write buffer. -/
theorem sentTo_replies (p : SessionPtr) : ∀ es : List Effect,
    (sentTo p es).flatMap Wire.replies = flushed p es
  | [] => rfl
  | e :: es => by
      have hone : (e.wire? p).toList.flatMap Wire.replies = e.output p := by
        cases e with
        | relayed q bytes =>
            simp only [Effect.wire?, Effect.output]
            split <;> rfl
        | sent q bytes =>
            simp only [Effect.wire?, Effect.output]
            split
            · exact List.append_nil bytes
            · rfl
        | _ => rfl
      rw [flushed, List.flatMap_cons, ← hone, ← flushed, ← sentTo_replies p es, sentTo, sentTo,
        List.filterMap_cons]
      cases e.wire? p with
      | none => rfl
      | some piece => simp

/-- A session that PUBLISH has written nothing to. -/
theorem sentTo_bytes {l : List Wire} (h : ∀ bytes, Wire.message bytes ∉ l) :
    l.flatMap Wire.bytes = l.flatMap Wire.replies := by
  refine List.flatMap_congr fun piece hp => ?_
  cases piece with
  | buffered bytes => rfl
  | message bytes => exact absurd hp (h bytes)

@[simp] theorem chunksOf_append : chunksOf p (es ++ es') = chunksOf p es ++ chunksOf p es' :=
  List.filterMap_append

@[simp] theorem requestsOf_append :
    requestsOf p (es ++ es') = requestsOf p es ++ requestsOf p es' := List.filterMap_append

/-- Effects that are not about a session. -/
def Quiet (p : SessionPtr) (es : List Effect) : Prop := ∀ e ∈ es, e.session ≠ some p

theorem Quiet.append (h : Quiet p es) (h' : Quiet p es') : Quiet p (es ++ es') := fun e he =>
  (List.mem_append.mp he).elim (h e) (h' e)

theorem Quiet.effect {e : Effect} (h : e.session ≠ some p) :
    e.reply? p = none ∧ e.output p = [] ∧ e.chunk? p = none ∧ e.request? p = none := by
  cases e <;> simp_all [Effect.session, Effect.reply?, Effect.output, Effect.chunk?,
    Effect.request?]

theorem Quiet.nothing (h : Quiet p es) :
    repliesTo p es = [] ∧ flushed p es = [] ∧ chunksOf p es = [] ∧ requestsOf p es = [] := by
  refine ⟨List.filterMap_eq_nil_iff.mpr fun e he => (Quiet.effect (h e he)).1,
    List.flatMap_eq_nil_iff.mpr fun e he => (Quiet.effect (h e he)).2.1,
    List.filterMap_eq_nil_iff.mpr fun e he => (Quiet.effect (h e he)).2.2.1,
    List.filterMap_eq_nil_iff.mpr fun e he => (Quiet.effect (h e he)).2.2.2⟩

end

/-- The engine behind an effect. -/
def Engine.after (s : Engine) (e : Effect) : Engine := (e.event.map s.step).getD s

/-- The reply of a command is the engine's. -/
def Effect.AnsweredBy (s : Engine) : Effect → Prop
  | .command _ ctx argv reply => (s.handleCommand ctx argv).2 = .ok reply
  | _ => True

theorem Engine.foldl_after (es : List Effect) (s : Engine) :
    es.foldl Engine.after s = s.run (history es) := by
  rw [Engine.run, history, List.foldl_filterMap]
  congr 1
  funext s e
  cases he : e.event <;> simp [Engine.after, he]

/-! ## Writing out -/

theorem writeLoop_total_le {mem : Memory} {len : Nat} (rs : List IoResult) : ∀ {s : WriteRun},
    s.total ≤ len → (writeLoop mem len rs s).total ≤ len := by
  induction rs with
  | nil =>
      intro s h
      exact h
  | cons r rs ih =>
      intro s h
      by_cases hlt : s.total < len
      · cases r with
        | count more =>
            rw [writeLoop, if_pos hlt]
            refine ih ?_
            change s.total + min (more + 1) (len - s.total) ≤ len
            omega
        | closed =>
            rw [writeLoop, if_pos hlt]
            exact ih h
        | eintr =>
            rw [writeLoop, if_pos hlt]
            exact ih h
        | eagain =>
            rw [writeLoop, if_pos hlt]
            exact h
      · rw [writeLoop_done hlt]
        exact h

theorem writeOut_total_le (mem : Memory) (len : Nat) (results : List IoResult) :
    (writeOut mem len results).total ≤ len := by
  unfold writeOut
  split
  · exact Nat.zero_le len
  · refine Nat.le_trans (writeLoop_total_le results (Nat.zero_le _)) ?_
    unfold DList.toInt32
    omega

/-- The results of `send` for which `WriteFromBuf` writes the bytes it claims,
whatever the length. -/
def SendsExactly (results : List IoResult) : Prop := ∀ len, WritesExactly len results

theorem writeOut_sent {results : List IoResult} (h : SendsExactly results) (mem : Memory)
    (len : Nat) :
    (writeOut mem len results).sent
      = (List.range (writeOut mem len results).total).map fun (i : Nat) => mem i := by
  unfold writeOut
  split
  · rfl
  · exact h _ mem

theorem Buffer.memory_natCast (b : Buffer) {i : Nat} (hi : i < b.readable.length) :
    b.memory i = b.readable[i] := by
  have hlen := b.length_readable
  have hw := b.writer_le
  have hpos : (0 : Int) ≤ b.pReader + (i : Int) := by omega
  have hnat : ((b.pReader : Int) + (i : Int)).toNat = b.pReader + i := by omega
  rw [memory, if_pos hpos, hnat]
  simp only [readable, List.getElem_take, List.getElem_drop]
  rw [List.getD_eq_getElem?_getD, List.getElem?_eq_getElem (by omega), Option.getD_some]

/-- The first bytes from `BeginRead()` are the first readable ones. -/
theorem Buffer.range_memory (b : Buffer) {n : Nat} (hn : n ≤ b.readable.length) :
    (List.range n).map (fun (i : Nat) => b.memory i) = b.readable.take n := by
  refine List.ext_getElem (by simp [hn]) fun i hi _ => ?_
  rw [List.length_map, List.length_range] at hi
  rw [List.getElem_map, List.getElem_range, List.getElem_take]
  exact b.memory_natCast (by omega)

/-- `WriteProc` takes what it has written off the front of the write buffer. -/
theorem Buffer.writeOut_sent {results : List IoResult} (h : SendsExactly results) (b : Buffer) :
    (writeOut b.memory b.readableBytes results).sent
      = b.readable.take (writeOut b.memory b.readableBytes results).total := by
  rw [LiteKV.writeOut_sent h, b.range_memory]
  rw [b.length_readable]
  exact writeOut_total_le _ _ _

namespace Process

theorem alive_iff {ps : Process} {p : SessionPtr} :
    ps.alive p = true ↔ (find? p.name ps.server.sessions).map Session.ptr = some p := by
  unfold alive
  cases find? p.name ps.server.sessions with
  | none => simp
  | some sess => simp

/-- A live session has an entry in `sessions_`. -/
theorem entry_of_alive {ps : Process} {p : SessionPtr} (h : ps.alive p = true) :
    ∃ sess, find? p.name ps.server.sessions = some sess := by
  obtain ⟨sess, hf, -⟩ := Option.map_eq_some_iff.mp (alive_iff.mp h)
  exact ⟨sess, hf⟩

/-! ## Descriptors -/

/-- The descriptors are as before. Children may have got copies of them. -/
structure SameFds (ps ps' : Process) : Prop where
  fds : ps'.fds = ps.fds
  fd : ∀ q, (ps'.io q).fd = (ps.io q).fd
  copies : ∀ q, ps.peer q ≠ some q → ps'.copies q = ps.copies q

section

variable {ps ps' ps'' : Process}

theorem SameFds.refl (ps : Process) : SameFds ps ps := ⟨rfl, fun _ => rfl, fun _ _ => rfl⟩

theorem SameFds.peer (h : SameFds ps ps') (q : SessionPtr) : ps'.peer q = ps.peer q := by
  rw [Process.peer, Process.peer, h.fds, h.fd]

theorem SameFds.trans (h : SameFds ps ps') (h' : SameFds ps' ps'') : SameFds ps ps'' :=
  ⟨h'.fds.trans h.fds, fun q => (h'.fd q).trans (h.fd q),
    fun q hq => (h'.copies q ((h.peer q).symm ▸ hq)).trans (h.copies q hq)⟩

theorem modifyIo_sameFds {p : SessionPtr} {f : SessionIo → SessionIo}
    (hf : (f (ps.io p)).fd = (ps.io p).fd) : SameFds ps (ps.modifyIo p f) := by
  refine ⟨rfl, fun q => ?_, fun _ _ => rfl⟩
  by_cases hqp : q = p
  · rw [hqp, modifyIo_io, hf]
  · rw [modifyIo_io_of_ne ps hqp]

end

/-! ## The requests of a read -/

/-- What handling requests of a session does. -/
structure Handles (ps : Process) (p : SessionPtr) (es : List Effect) (ps' : Process) : Prop where
  tables : ps.server.SameSessions ps'.server
  fds : ps.SameFds ps'
  epoll : ps'.epoll = ps.epoll
  io : ∀ q, q ≠ p → ps'.io q = ps.io q
  readState : (ps'.io p).readState = (ps.io p).readState
  mask : (ps'.io p).mask = (ps.io p).mask
  pending : (ps'.io p).writeBuf.readable = (ps.io p).writeBuf.readable ++ (repliesTo p es).flatten
  quiet : ∀ q, q ≠ p → Quiet q es
  answered : Guarded Engine.after (fun s e => e.AnsweredBy s) ps.engine es
  engine : ps'.engine = es.foldl Engine.after ps.engine
  sent : flushed p es = []
  chunks : chunksOf p es = []

section

variable {ps ps' ps'' : Process} {p : SessionPtr} {es es' : List Effect}

theorem Handles.refl (ps : Process) (p : SessionPtr) : Handles ps p [] ps where
  tables := .refl _
  fds := .refl _
  epoll := rfl
  io _ _ := rfl
  readState := rfl
  mask := rfl
  pending := (List.append_nil _).symm
  quiet _ _ := List.forall_mem_nil _
  answered := trivial
  engine := rfl
  sent := rfl
  chunks := rfl

theorem Handles.trans (h : Handles ps p es ps') (h' : Handles ps' p es' ps'') :
    Handles ps p (es ++ es') ps'' where
  tables := h.tables.trans h'.tables
  fds := h.fds.trans h'.fds
  epoll := h'.epoll.trans h.epoll
  io q hq := (h'.io q hq).trans (h.io q hq)
  readState := h'.readState.trans h.readState
  mask := h'.mask.trans h.mask
  pending := by rw [h'.pending, h.pending, repliesTo_append, List.flatten_append,
    List.append_assoc]
  quiet q hq := (h.quiet q hq).append (h'.quiet q hq)
  answered := h.answered.append es es' (h.engine ▸ h'.answered)
  engine := by rw [h'.engine, h.engine, List.foldl_append]
  sent := by rw [flushed_append, h.sent, h'.sent, List.append_nil]
  chunks := by rw [chunksOf_append, h.chunks, h'.chunks, List.append_nil]

theorem Handles.alive (h : Handles ps p es ps') (q : SessionPtr) : ps'.alive q = ps.alive q := by
  rw [Bool.eq_iff_iff, alive_iff, alive_iff, h.tables.ptr]

/-- What PUBLISH writes is no reply, and nothing to the engine. -/
theorem relayed_nothing (ps : Process) (written : List (SessionPtr × Bytes)) (q : SessionPtr) :
    Quiet q (ps.relayed written) := by
  intro e he
  obtain ⟨w, -, hw⟩ := List.mem_filterMap.mp he
  obtain ⟨r, -, rfl⟩ := Option.map_eq_some_iff.mp hw
  exact (Option.some_ne_none q).symm

theorem relayed_after (ps : Process) (s : Engine) : ∀ written : List (SessionPtr × Bytes),
    (ps.relayed written).foldl Engine.after s = s ∧
      Guarded Engine.after (fun s e => e.AnsweredBy s) s (ps.relayed written)
  | [] => ⟨rfl, trivial⟩
  | w :: written => by
      obtain ⟨hfold, hguard⟩ := relayed_after ps s written
      rw [relayed, List.filterMap_cons]
      cases ps.peer w.1 with
      | none => exact ⟨hfold, hguard⟩
      | some q => exact ⟨hfold, trivial, hguard⟩

theorem handleCommand_handles (ha : ps.alive p = true) {env : CommandEnv} {argv : List Bytes}
    (h : ps.handleCommand p env argv = .ok (ps', es)) :
    Handles ps p es ps' ∧ requestsOf p es = [argv] ∧ (repliesTo p es).length = 1 := by
  obtain ⟨sess, hf⟩ := entry_of_alive ha
  unfold handleCommand at h
  split at h
  · cases h
  · dsimp only at h
    have htables :=
      Server.answer_sameSessions hf (ps.reaches env) ((arg argv 0).map toLower :: argv.drop 1)
    generalize ps.server.answer p.name (ps.reaches env) ((arg argv 0).map toLower :: argv.drop 1)
      = answer at h htables
    split at h
    · cases h
    · rename_i reply hreply
      cases h
      obtain ⟨hafter, hguard⟩ := relayed_after ps ps.engine answer.written
      obtain ⟨hr, hs, hc, hq⟩ := (relayed_nothing ps answer.written p).nothing
      refine ⟨?_, ?_, ?_⟩
      · refine ⟨htables, ⟨rfl, ?_, ?_⟩, rfl, fun q hne => modifyIo_io_of_ne _ hne _, ?_, ?_, ?_, ?_,
          ?_, ?_, ?_, ?_⟩
        · exact (modifyIo_sameFds rfl).fd
        · intro q hq
          change (if answer.forked then ps.forkedCopies else ps.copies) q = ps.copies q
          split
          · exact if_neg hq
          · rfl
        · rw [modifyIo_io]
          rfl
        · rw [modifyIo_io]
          rfl
        · rw [modifyIo_io, repliesTo_append, hr]
          simp [SessionIo.append, repliesTo, Effect.reply?]
        · refine fun q hne => (relayed_nothing ps _ q).append fun e he => ?_
          rw [List.mem_singleton.mp he]
          exact fun hq => hne (Option.some.inj hq).symm
        · refine hguard.append _ _ ⟨?_, trivial⟩
          rw [hafter]
          exact hreply
        · rw [List.foldl_append, hafter]
          rfl
        · rw [flushed_append, hs]
          rfl
        · rw [chunksOf_append, hc]
          rfl
      · rw [requestsOf_append, hq]
        simp [requestsOf, Effect.request?]
      · rw [repliesTo_append, hr]
        simp [repliesTo, Effect.reply?]

theorem handleAll_handles {envs : Nat → CommandEnv} : ∀ (cs : List CommandCache) (i : Nat)
    {ps ps' : Process} {es : List Effect}, ps.alive p = true →
    handleAll p envs i cs ps = .ok (ps', es) →
    Handles ps p es ps' ∧ requestsOf p es = cs.map CommandCache.argv ∧
      (repliesTo p es).length = cs.length
  | [], _, ps, _, _, _, h => by
      cases h
      exact ⟨.refl ps p, rfl, rfl⟩
  | c :: cs, i, ps, ps', es, ha, h => by
      rw [handleAll, bind_eq_ok] at h
      obtain ⟨⟨ps₁, es₁⟩, h₁, h⟩ := h
      obtain ⟨⟨ps₂, es₂⟩, h₂, h⟩ := bind_eq_ok.mp h
      cases h
      obtain ⟨hh₁, hr₁, hl₁⟩ := handleCommand_handles ha h₁
      obtain ⟨hh₂, hr₂, hl₂⟩ := handleAll_handles cs (i + 1) ((hh₁.alive p).trans ha) h₂
      refine ⟨hh₁.trans hh₂, by rw [requestsOf_append, hr₁, hr₂]; rfl, ?_⟩
      rw [repliesTo_append, List.length_append, hl₁, hl₂, List.length_cons, Nat.add_comm]

end

/-! ## What an entry of `ep_events_` does -/

/-- The requests and errors of a session are those its chunks give, read one
after the other, and each has one reply. -/
structure Parses (p : SessionPtr) (es : List Effect) (st st' : ReadState) : Prop where
  state : (trace LiteKV.readProc st (chunksOf p es)).1 = st'
  requests : requestsOf p es
    = (trace LiteKV.readProc st (chunksOf p es)).2.flatMap fun o => o.1.map CommandCache.argv
  replies : (repliesTo p es).length
    = (requestsOf p es).length + (trace LiteKV.readProc st (chunksOf p es)).2.countP (·.2)

/-- What every handler of a session does. -/
structure Acts (ps : Process) (p : SessionPtr) (es : List Effect) (ps' : Process) : Prop where
  io : ∀ q, q ≠ p → ps'.io q = ps.io q
  epoll : ∀ q, q ≠ p → ps'.epoll q = ps.epoll q
  quiet : ∀ q, q ≠ p → Quiet q es
  answered : Guarded Engine.after (fun s e => e.AnsweredBy s) ps.engine es
  engine : ps'.engine = es.foldl Engine.after ps.engine
  parses : Parses p es (ps.io p).readState (ps'.io p).readState

/-- A session is open: its descriptor leads to its connection, epoll watches it for
what its mask says, and while something is pending that is writing, too. -/
structure Open (ps : Process) (p : SessionPtr) : Prop where
  peer : ps.peer p = some p
  registered : ps.epoll p = some (ps.io p).mask
  mask : (ps.io p).mask = epollIn ∨ (ps.io p).mask = epollIn ||| epollOut
  pending : (ps.io p).writeBuf.readable ≠ [] → (ps.io p).mask = epollIn ||| epollOut

/-- A handler that leaves its session open. -/
structure Serves (exact_ : Prop) (ps : Process) (p : SessionPtr) (es : List Effect)
    (ps' : Process) :
    Prop extends Acts ps p es ps' where
  tables : ps.server.SameSessions ps'.server
  fds : ps.SameFds ps'
  isOpen : ps'.Open p
  flow : exact_ → (ps.io p).writeBuf.readable ++ (repliesTo p es).flatten
    = flushed p es ++ (ps'.io p).writeBuf.readable

/-- A handler that closes its session. epoll keeps it when a child has a copy of its
descriptor. -/
structure Leaves (exact_ : Prop) (ps : Process) (p : SessionPtr) (es : List Effect)
    (ps' : Process) :
    Prop extends Acts ps p es ps' where
  wellFormed : ps'.server.WellFormed
  sessions : ∀ n, (find? n ps'.server.sessions).map Session.ptr
    = if n = p.name then none else (find? n ps.server.sessions).map Session.ptr
  next : ps'.server.nextSessionId = ps.server.nextSessionId
  reached : ∃ events, ps'.server = ps.server.run events
  fds : ps'.fds = Function.update ps.fds (ps.io p).fd none
  fd : ∀ q, (ps'.io q).fd = (ps.io q).fd
  copies : ∀ q, ps.peer q ≠ some q → ps'.copies q = ps.copies q
  gone : (ps'.epoll p).isSome ↔ 0 < ps'.copies p
  flow : exact_ → flushed p es <+: (ps.io p).writeBuf.readable ++ (repliesTo p es).flatten

section

variable {exact_ : Prop} {ps ps' ps'' : Process} {p : SessionPtr} {es es' : List Effect}

theorem Parses.trans {st st' st'' : ReadState} (h : Parses p es st st')
    (h' : Parses p es' st' st'') :
    Parses p (es ++ es') st st'' := by
  have hst := h.state
  constructor
  · rw [chunksOf_append, trace_append, hst]
    exact h'.state
  · rw [chunksOf_append, trace_append, hst, requestsOf_append, List.flatMap_append, h.requests,
      h'.requests]
  · rw [chunksOf_append, trace_append, hst, requestsOf_append, repliesTo_append, List.length_append,
      List.length_append, List.countP_append, h.replies, h'.replies]
    omega

theorem Parses.nothing (st : ReadState) (hc : chunksOf p es = []) (hr : requestsOf p es = [])
    (hl : repliesTo p es = []) : Parses p es st st := by
  constructor
  · rw [hc]
    rfl
  · rw [hc, hr]
    rfl
  · rw [hc, hr, hl]
    rfl

theorem Acts.trans (h : Acts ps p es ps') (h' : Acts ps' p es' ps'') :
    Acts ps p (es ++ es') ps'' where
  io q hq := (h'.io q hq).trans (h.io q hq)
  epoll q hq := (h'.epoll q hq).trans (h.epoll q hq)
  quiet q hq := (h.quiet q hq).append (h'.quiet q hq)
  answered := h.answered.append es es' (h.engine ▸ h'.answered)
  engine := by rw [h'.engine, h.engine, List.foldl_append]
  parses := h.parses.trans h'.parses

theorem Serves.refl (h : ps.Open p) : Serves exact_ ps p [] ps where
  io _ _ := rfl
  epoll _ _ := rfl
  quiet _ _ := List.forall_mem_nil _
  answered := trivial
  engine := rfl
  parses := .nothing _ rfl rfl rfl
  tables := .refl _
  fds := .refl _
  isOpen := h
  flow _ := List.append_nil _

theorem Serves.trans (h : Serves exact_ ps p es ps') (h' : Serves exact_ ps' p es' ps'') :
    Serves exact_ ps p (es ++ es') ps'' where
  toActs := h.toActs.trans h'.toActs
  tables := h.tables.trans h'.tables
  fds := h.fds.trans h'.fds
  isOpen := h'.isOpen
  flow he := by
    rw [repliesTo_append, List.flatten_append, ← List.append_assoc, h.flow he, List.append_assoc,
      h'.flow he, flushed_append, List.append_assoc]

/-- A session that is served and then closed. -/
theorem Serves.leaves (h : Serves exact_ ps p es ps') (h' : Leaves exact_ ps' p es' ps'') :
    Leaves exact_ ps p (es ++ es') ps'' where
  toActs := h.toActs.trans h'.toActs
  wellFormed := h'.wellFormed
  sessions n := by rw [h'.sessions, h.tables.ptr]
  next := h'.next.trans h.tables.next
  reached := by
    obtain ⟨events, he⟩ := h.tables.reached
    obtain ⟨events', he'⟩ := h'.reached
    refine ⟨events ++ events', ?_⟩
    rw [Server.run] at he he'
    rw [Server.run, List.foldl_append, ← he, ← he']
  fds := by rw [h'.fds, h.fds.fds, h.fds.fd]
  fd q := (h'.fd q).trans (h.fds.fd q)
  copies q hq := (h'.copies q ((h.fds.peer q).symm ▸ hq)).trans (h.fds.copies q hq)
  gone := h'.gone
  flow he := by
    obtain ⟨rest, hrest⟩ := h'.flow he
    refine ⟨rest, ?_⟩
    rw [flushed_append, List.append_assoc, hrest, repliesTo_append, List.flatten_append,
      ← List.append_assoc, ← h.flow he, List.append_assoc]

end

section

variable {exact_ : Prop} {ps ps' : Process} {p : SessionPtr} {es : List Effect}

/-- Closing a session takes it, and nothing else, out of the tables, and out of epoll
unless a child has a copy of its descriptor. -/
theorem close_leaves (hwf : ps.server.WellFormed) (ho : ps.Open p) {server : Server}
    (hs : server.WellFormed) (hsess : server.sessions = erase p.name ps.server.sessions)
    (hnext : server.nextSessionId = ps.server.nextSessionId)
    (hreached : ∃ events, server = ps.server.run events) :
    Leaves exact_ ps p [.closed p] (ps.close p server) where
  io _ _ := rfl
  epoll q hq := by
    change (if ps.copies p = 0 then Function.update ps.epoll p none else ps.epoll) q = _
    split
    · exact Function.update_of_ne hq _ _
    · rfl
  quiet q hq e he := by
    rw [List.mem_singleton.mp he]
    exact fun h => hq (Option.some.inj h).symm
  answered := ⟨trivial, trivial⟩
  engine := rfl
  parses := .nothing _ rfl rfl rfl
  wellFormed := hs
  sessions n := by
    change (find? n server.sessions).map _ = _
    rw [hsess, Server.find?_erased hwf]
    split <;> rfl
  next := hnext
  reached := hreached
  fds := rfl
  fd _ := rfl
  copies _ _ := rfl
  gone := by
    change ((if ps.copies p = 0 then Function.update ps.epoll p none else ps.epoll) p).isSome
      ↔ 0 < ps.copies p
    split
    · rename_i hnone
      simp [hnone]
    · rename_i hsome
      simp [ho.registered, Nat.pos_of_ne_zero hsome]
  flow _ := List.nil_prefix

theorem setWrite_mask {mask : UInt32} (h : mask = epollIn ∨ mask = epollIn ||| epollOut) :
    mask ||| epollOut = epollIn ||| epollOut := by
  rcases h with rfl | rfl <;> decide

/-- Handling the requests of a chunk, with the session registered for writing
afterwards. -/
theorem Handles.serves {ps₁ ps₂ : Process} (h : Handles ps₁ p es ps₂) {chunk : Bytes}
    (ho : ps.Open p) (h₁ : ps₁ = ps.modifyIo p fun io =>
      { io with readState := (LiteKV.readProc (ps.io p).readState chunk).1 })
    (hr : requestsOf p es = (LiteKV.readProc (ps.io p).readState chunk).2.1.map CommandCache.argv)
    (hl : (repliesTo p es).length = (requestsOf p es).length +
      if (LiteKV.readProc (ps.io p).readState chunk).2.2 then 1 else 0) :
    Serves exact_ ps p (.received p chunk :: es) (ps₂.setWrite p) := by
  subst h₁
  have hio : (ps₂.setWrite p).io p = (ps₂.io p).setWrite := modifyIo_io _ _ _
  have hchunks : chunksOf p (.received p chunk :: es) = [chunk] := by
    change (Effect.received p chunk :: es).filterMap _ = _
    rw [List.filterMap_cons_some (b := chunk) (by simp [Effect.chunk?])]
    exact congrArg (chunk :: ·) h.chunks
  have hreq : requestsOf p (.received p chunk :: es) = requestsOf p es := rfl
  have hrep : repliesTo p (.received p chunk :: es) = repliesTo p es := rfl
  have hsent : flushed p (.received p chunk :: es) = [] := h.sent
  have hmask : ((ps₂.setWrite p).io p).mask = epollIn ||| epollOut := by
    rw [hio]
    change (ps₂.io p).mask ||| epollOut = _
    rw [h.mask, modifyIo_io]
    exact setWrite_mask ho.mask
  have hfds : SameFds ps (ps₂.setWrite p) :=
    .trans (modifyIo_sameFds rfl) (.trans h.fds ⟨rfl, (modifyIo_sameFds rfl).fd, fun _ _ => rfl⟩)
  refine ⟨⟨fun q hq => ?_, fun q hq => ?_, fun q hq => ?_, ?_, ?_, ?_⟩, h.tables, hfds,
    ⟨(hfds.peer p).trans ho.peer, ?_, .inr hmask, fun _ => hmask⟩, fun _ => ?_⟩
  · exact (modifyIo_io_of_ne _ hq _).trans ((h.io q hq).trans (modifyIo_io_of_ne _ hq _))
  · change Function.update _ _ _ q = _
    rw [Function.update_of_ne hq]
    exact congrFun h.epoll q
  · refine fun e he => (List.mem_cons.mp he).elim (fun hh => ?_) (h.quiet q hq e)
    subst hh
    exact fun hh => hq (Option.some.inj hh).symm
  · exact ⟨trivial, h.answered⟩
  · exact h.engine
  · have hst : ((ps₂.setWrite p).io p).readState
        = (LiteKV.readProc (ps.io p).readState chunk).1 := by
      rw [hio]
      change (ps₂.io p).readState = _
      rw [h.readState, modifyIo_io]
    rw [hst]
    constructor
    · rw [hchunks]
      rfl
    · rw [hchunks, hreq, hr]
      exact (List.append_nil _).symm
    · rw [hchunks, hreq, hrep, hl]
      simp [trace]
  · exact Function.update_self p _ _
  · rw [hrep, hsent, hio]
    change _ = (ps₂.io p).writeBuf.readable
    rw [h.pending, modifyIo_io]

/-- The error message, put into the write buffer. -/
theorem malformed_handles (ps : Process) (p : SessionPtr) :
    Handles ps p [.malformed p] (ps.modifyIo p (·.append wrongReqMsg)) := by
  refine ⟨.refl _, modifyIo_sameFds rfl, rfl, fun q hq => modifyIo_io_of_ne _ hq _, ?_, ?_, ?_,
    fun q hq e he => ?_, ⟨trivial, trivial⟩, rfl, rfl, rfl⟩
  · rw [modifyIo_io]
    rfl
  · rw [modifyIo_io]
    rfl
  · rw [modifyIo_io]
    simp [SessionIo.append, repliesTo, Effect.reply?]
  · rw [List.mem_singleton.mp he]
    exact fun h => hq (Option.some.inj h).symm

/-- The error is handled behind `SetWrite`, which is set again. -/
theorem parseErrorHandling_eq (ps : Process) (p : SessionPtr) :
    (ps.setWrite p).parseErrorHandling p
      = (ps.modifyIo p (·.append wrongReqMsg)).setWrite p := by
  have hmask : (ps.io p).mask ||| epollOut ||| epollOut = (ps.io p).mask ||| epollOut := by
    rw [UInt32.or_assoc, UInt32.or_self]
  simp [parseErrorHandling, setWrite, modifyIo, modifySession, SessionIo.append,
    SessionIo.setWrite, hmask]

/-- `ReadProc` closes its session at the end of the connection, and else serves
it. -/
theorem readProc_cases (hwf : ps.server.WellFormed) (ha : ps.alive p = true) (ho : ps.Open p)
    {io : ReadyIo} {closed : Bool} (h : ps.readProc p io = .ok (ps', closed, es)) :
    (closed = true ∧ Leaves exact_ ps p es ps') ∨ (closed = false ∧ Serves exact_ ps p es ps') := by
  unfold readProc at h
  dsimp only at h
  generalize readToBuf io.stream (fun _ => 0) netReadBufSize io.reads = r at h
  by_cases hr : r.total = 0
  · rw [if_pos hr] at h
    cases h
    obtain ⟨hs, hsess, hnext⟩ := Server.readClose_wellFormed hwf p.name
    exact .inl ⟨rfl, close_leaves hwf ho hs hsess hnext ⟨[.readClose p.name], rfl⟩⟩
  · rw [if_neg hr] at h
    generalize (List.range r.total).map (fun (i : Nat) => r.mem i) = chunk at h
    obtain ⟨⟨ps₂, es₂⟩, h₂, h⟩ := bind_eq_ok.mp h
    have ha₁ : (ps.modifyIo p fun io =>
        { io with readState := (LiteKV.readProc (ps.io p).readState chunk).1 }).alive p = true := ha
    obtain ⟨hh, hreq, hlen⟩ := handleAll_handles _ 0 ha₁ h₂
    refine .inr ?_
    split at h
    · rename_i herr
      cases h
      refine ⟨rfl, ?_⟩
      rw [List.cons_append, parseErrorHandling_eq]
      refine (hh.trans (malformed_handles ps₂ p)).serves ho rfl ?_ ?_
      · rw [requestsOf_append, hreq]
        exact List.append_nil _
      · rw [repliesTo_append, List.length_append, hlen, requestsOf_append, hreq, if_pos herr]
        simp [repliesTo, requestsOf, Effect.reply?, Effect.request?]
    · rename_i herr
      cases h
      refine ⟨rfl, hh.serves ho rfl hreq ?_⟩
      rw [hlen, hreq, if_neg herr, List.length_map, Nat.add_zero]

/-- A step of a session that only takes bytes out of its write buffer. -/
theorem output_serves {sent : List Effect} {f : SessionIo → SessionIo} (ho : ps'.Open p)
    (hps : ps' = { ps.modifyIo p f with epoll := ps'.epoll })
    (hepoll : ∀ q, q ≠ p → ps'.epoll q = ps.epoll q)
    (hfd : (f (ps.io p)).fd = (ps.io p).fd)
    (hf : (f (ps.io p)).readState = (ps.io p).readState)
    (hsent : ∀ e ∈ sent, ∃ bytes, e = .sent p bytes)
    (hflow : exact_ → (ps.io p).writeBuf.readable
      = flushed p sent ++ (f (ps.io p)).writeBuf.readable) :
    Serves exact_ ps p sent ps' := by
  have hio : ps'.io p = f (ps.io p) := by
    rw [hps]
    exact modifyIo_io _ _ _
  have hnone : ∀ (s : Engine), sent.foldl Engine.after s = s ∧
      Guarded Engine.after (fun s e => e.AnsweredBy s) s sent := by
    clear hflow
    induction sent with
    | nil => exact fun s => ⟨rfl, trivial⟩
    | cons e es ih =>
        intro s
        obtain ⟨bytes, rfl⟩ := hsent e List.mem_cons_self
        obtain ⟨h₁, h₂⟩ := ih (fun e he => hsent e (List.mem_cons_of_mem _ he)) s
        exact ⟨h₁, trivial, h₂⟩
  have hrep : repliesTo p sent = [] := List.filterMap_eq_nil_iff.mpr fun e he => by
    obtain ⟨bytes, rfl⟩ := hsent e he
    rfl
  have hreq : requestsOf p sent = [] := List.filterMap_eq_nil_iff.mpr fun e he => by
    obtain ⟨bytes, rfl⟩ := hsent e he
    rfl
  have hchunks : chunksOf p sent = [] := List.filterMap_eq_nil_iff.mpr fun e he => by
    obtain ⟨bytes, rfl⟩ := hsent e he
    rfl
  refine ⟨⟨fun q hq => ?_, hepoll, fun q hq e he => ?_, (hnone _).2, ?_, ?_⟩, ?_, ?_, ho,
    fun he => ?_⟩
  · rw [hps]
    exact modifyIo_io_of_ne _ hq _
  · obtain ⟨bytes, rfl⟩ := hsent e he
    exact fun h => hq (Option.some.inj h).symm
  · rw [(hnone _).1, hps]
    rfl
  · rw [hio, hf]
    exact .nothing _ hchunks hreq hrep
  · rw [hps]
    exact .refl _
  · rw [hps]
    exact ⟨rfl, (modifyIo_sameFds hfd).fd, fun _ _ => rfl⟩
  · rw [hrep, hio, List.flatten_nil, List.append_nil]
    exact hflow he

/-- A session that waits for input only, with nothing pending. -/
theorem setRead_open (ho : ps.Open p) (h : (ps.io p).writeBuf.readable = []) :
    (ps.setRead p).Open p := by
  have hio : (ps.setRead p).io p = (ps.io p).setRead := modifyIo_io _ _ _
  refine ⟨?_, Function.update_self p _ _, .inl ?_, fun hne => ?_⟩
  · rw [peer, hio]
    exact ho.peer
  · rw [hio]
    rfl
  · rw [hio] at hne
    exact absurd h hne

theorem readable_eq_nil {b : Buffer} (h : b.readableBytes = 0) : b.readable = [] :=
  List.length_eq_zero_iff.mp (b.length_readable.trans h)

/-- `WriteProc` closes its session when something is pending and nothing could be
written, and else serves it. -/
theorem writeProc_cases (hwf : ps.server.WellFormed) (ho : ps.Open p) (sends : List IoResult) :
    Leaves (SendsExactly sends) ps p (ps.writeProc p sends).2 (ps.writeProc p sends).1 ∨
      Serves (SendsExactly sends) ps p (ps.writeProc p sends).2 (ps.writeProc p sends).1 := by
  unfold writeProc
  dsimp only
  split
  · rename_i hnil
    have hr : (ps.io p).writeBuf.readable = [] := readable_eq_nil (Nat.le_zero.mp hnil)
    refine .inr (output_serves (f := SessionIo.setRead) (setRead_open ho hr) rfl
      (fun q hq => Function.update_of_ne hq _ _) rfl rfl (List.forall_mem_nil _) fun _ => rfl)
  · rename_i hpos
    have hne : (ps.io p).writeBuf.readable ≠ [] := fun h => by
      have := (ps.io p).writeBuf.length_readable
      rw [h] at this
      exact hpos (by simp only [Buffer.readableBytes]; simp at this; omega)
    have hle := writeOut_total_le (ps.io p).writeBuf.memory (ps.io p).writeBuf.readableBytes sends
    have htaken : SendsExactly sends → _ := fun h => Buffer.writeOut_sent h (ps.io p).writeBuf
    generalize writeOut (ps.io p).writeBuf.memory (ps.io p).writeBuf.readableBytes sends = w
      at hle htaken
    split
    · have hone : ∀ e ∈ [Effect.sent p w.sent], ∃ bytes, e = .sent p bytes := fun e he =>
        ⟨w.sent, List.mem_singleton.mp he⟩
      have hsent : flushed p [.sent p w.sent] = w.sent := by simp [flushed, Effect.output]
      split
      · rename_i hall
        have hlen := (ps.io p).writeBuf.length_readable
        refine .inr (output_serves
          (f := fun io => { io with mask := epollIn, writeBuf := io.writeBuf.reset }) ?_ ?_
          (fun q hq => Function.update_of_ne hq _ _) rfl rfl hone fun h => ?_)
        · refine ⟨?_, ?_, .inl ?_, fun hp => ?_⟩
          · rw [peer, modifyIo_io]
            dsimp only
            rw [show (ps.setRead p).io p = (ps.io p).setRead from modifyIo_io _ _ _]
            exact ho.peer
          · rw [modifyIo_io]
            exact Function.update_self p _ _
          · rw [modifyIo_io]
            exact congrArg SessionIo.mask (modifyIo_io ps p .setRead)
          · rw [modifyIo_io] at hp
            exact absurd (Buffer.readable_reset _) hp
        · simp [modifyIo, setRead, modifySession, SessionIo.setRead]
        · rw [hsent, htaken h, Buffer.readable_reset, List.append_nil, List.take_of_length_le]
          rw [hlen, hall]
          exact Nat.le_refl _
      · refine .inr (output_serves
          (f := fun io => { io with writeBuf := io.writeBuf.readerIdxForward w.total }) ?_ rfl
          (fun _ _ => rfl) rfl rfl hone fun h => ?_)
        · have hmask := ho.pending hne
          refine ⟨?_, ?_, .inr ?_, fun _ => ?_⟩
          · rw [peer, modifyIo_io]
            exact ho.peer
          · rw [modifyIo_io]
            exact ho.registered
          · rw [modifyIo_io]
            exact hmask
          · rw [modifyIo_io]
            exact hmask
        · rw [hsent, htaken h, Buffer.readable_forward, List.take_append_drop]
    · exact .inl (close_leaves hwf ho (Server.writeClose_wellFormed hwf p.name) rfl rfl
        ⟨[.writeClose p.name], rfl⟩)

/-- An entry for a live session: it is served, or it is gone. -/
theorem session_cases (hwf : ps.server.WellFormed) (ho : ps.Open p) {fired : UInt32} {io : ReadyIo}
    (ha : ps.alive p = true) (h : ps.ready (.session p fired io) = .ok (ps', es)) :
    Leaves (SendsExactly io.sends) ps p es ps' ∨ Serves (SendsExactly io.sends) ps p es ps' := by
  rw [ready, ha, Bool.not_true, if_neg Bool.false_ne_true, bind_eq_ok] at h
  obtain ⟨⟨ps₁, closed, es₁⟩, h₁, h⟩ := h
  have hread : (closed = true ∧ Leaves (SendsExactly io.sends) ps p es₁ ps₁) ∨
      (closed = false ∧ Serves (SendsExactly io.sends) ps p es₁ ps₁) := by
    unfold fireRead at h₁
    split at h₁
    · exact readProc_cases hwf ha ho h₁
    · cases h₁
      exact .inr ⟨rfl, .refl ho⟩
  dsimp only at h
  rcases hread with ⟨rfl, hleaves⟩ | ⟨rfl, hserves⟩
  · rw [if_pos rfl] at h
    cases h
    exact .inl hleaves
  · rw [if_neg Bool.false_ne_true] at h
    split at h
    · cases h
      exact (writeProc_cases (hserves.tables.wellFormed hwf) hserves.isOpen io.sends).imp
        hserves.leaves hserves.trans
    · cases h
      exact .inr hserves

end

/-! ## Turns of the loop -/

end Process

/-- The session of an entry. -/
def Ready.session? : Ready → Option SessionPtr
  | .listen _ _ => none
  | .session p _ _ => some p

/-- `WriteProc` meets results for which it writes the bytes it claims. -/
def Ready.SendsExactly : Ready → Prop
  | .listen _ _ => True
  | .session _ _ io => LiteKV.SendsExactly io.sends

namespace Process

/-- What `accept` gives is new: its descriptor is free, and no open session has the
name of the new one, which tells the peer and the number of the connection. -/
def NewPeer (ps : Process) : Ready → Prop
  | .listen _ (some c) => ps.fds c.fd = none ∧
      ∀ p, ps.alive p = true → p.name ≠ SessionPtr.name ⟨c.addr, ps.server.nextSessionId⟩
  | _ => True

/-- What the kernel promises about a turn: `epoll_wait` reports each socket once,
and only those it watches when it is called. -/
structure Reported (ps : Process) (t : Turn) : Prop where
  once : (t.batch.filterMap Ready.session?).Nodup
  watched : ∀ p ∈ t.batch.filterMap Ready.session?, ((ps.polled t).epoll p).isSome
  peers : GuardedE ready NewPeer (ps.polled t) t.batch

/-- What holds between two turns, and between two entries of one. Beside the open
sessions epoll has the closed ones of which a child has a copy. -/
structure Inv (ps : Process) : Prop where
  wellFormed : ps.server.WellFormed
  isOpen : ∀ p, ps.alive p = true → ps.Open p
  left : ∀ p, ps.alive p = false →
    ((ps.epoll p).isSome ↔ ps.peer p ≠ some p ∧ 0 < ps.copies p)
  known : ∀ n p, ps.fds n = some p → p.id < ps.server.nextSessionId
  copied : ∀ p, 0 < ps.copies p → p.id < ps.server.nextSessionId

theorem inv_new (engine : Engine) : (new engine).Inv :=
  ⟨Server.wellFormed_new, (fun _ h => Bool.noConfusion h),
    (fun _ _ => ⟨Bool.noConfusion, fun h => absurd h.2 (Nat.lt_irrefl 0)⟩),
    (fun _ _ h => by cases h), fun _ h => absurd h (Nat.lt_irrefl 0)⟩

section

variable {exact_ : Prop} {ps ps' : Process} {p : SessionPtr} {es : List Effect}

/-- A session that is as it was. -/
theorem Open.same {q : SessionPtr} (h : ps.Open q) (hp : ps'.peer q = some q)
    (hio : ps'.io q = ps.io q) (hep : ps'.epoll q = ps.epoll q) : ps'.Open q := by
  obtain ⟨-, h₂, h₃, h₄⟩ := h
  exact ⟨hp, by rw [hep, hio]; exact h₂, by rw [hio]; exact h₃, by rw [hio]; exact h₄⟩

theorem Serves.alive (h : Serves exact_ ps p es ps') (q : SessionPtr) :
    ps'.alive q = ps.alive q := by
  rw [Bool.eq_iff_iff, alive_iff, alive_iff, h.tables.ptr]

/-- A closed session, of which nothing is changed. -/
theorem Inv.left_same {q : SessionPtr} (hi : ps.Inv) (ha : ps.alive q = false)
    (hep : ps'.epoll q = ps.epoll q) (hp : ps'.peer q = some q ↔ ps.peer q = some q)
    (hc : ps.peer q ≠ some q → ps'.copies q = ps.copies q) :
    (ps'.epoll q).isSome ↔ ps'.peer q ≠ some q ∧ 0 < ps'.copies q := by
  rw [hep, hi.left q ha, Ne, Ne, hp]
  exact and_congr_right fun hne => by rw [hc hne]

/-- A copy is one that was there, or one of a descriptor. -/
theorem Inv.copied_same {q : SessionPtr} (hi : ps.Inv)
    (hc : ps.peer q ≠ some q → ps'.copies q = ps.copies q) (h : 0 < ps'.copies q) :
    q.id < ps.server.nextSessionId := by
  by_cases hq : ps.peer q = some q
  · exact hi.known _ q hq
  · rw [hc hq] at h
    exact hi.copied q h

theorem Serves.inv (h : Serves exact_ ps p es ps') (hi : ps.Inv) (ha : ps.alive p = true) :
    ps'.Inv := by
  refine ⟨h.tables.wellFormed hi.wellFormed, fun q hq => ?_, fun q hq => ?_, fun n q hq => ?_,
    fun q hq => ?_⟩
  · by_cases hqp : q = p
    · rw [hqp]
      exact h.isOpen
    · have ho := hi.isOpen q ((h.alive q).symm.trans hq)
      exact ho.same ((h.fds.peer q).trans ho.peer) (h.io q hqp) (h.epoll q hqp)
  · rw [h.alive] at hq
    have hqp : q ≠ p := fun hqp => by
      rw [hqp, ha] at hq
      cases hq
    exact hi.left_same hq (h.epoll q hqp) (by rw [h.fds.peer]) (h.fds.copies q)
  · rw [h.fds.fds] at hq
    rw [h.tables.next]
    exact hi.known n q hq
  · rw [h.tables.next]
    exact hi.copied_same (h.fds.copies q) hq

theorem Leaves.alive (h : Leaves exact_ ps p es ps') (q : SessionPtr) :
    ps'.alive q = true ↔ q.name ≠ p.name ∧ ps.alive q = true := by
  rw [alive_iff, alive_iff, h.sessions]
  split
  · rename_i hn
    simp [hn]
  · rename_i hn
    simp [hn]

/-- Live sessions of one name are one session. -/
theorem alive_unique {q : SessionPtr} (hp : ps.alive p = true) (hq : ps.alive q = true)
    (hn : q.name = p.name) : q = p := by
  rw [alive_iff] at hp hq
  rw [hn, hp] at hq
  exact (Option.some.inj hq).symm

/-- The descriptor of a closed session leads nowhere, and the others are as before. -/
theorem Leaves.peer (h : Leaves exact_ ps p es ps') (q : SessionPtr) :
    ps'.peer q = if (ps.io q).fd = (ps.io p).fd then none else ps.peer q := by
  rw [Process.peer, h.fds, h.fd, Function.update_apply]
  rfl

theorem Leaves.peer_iff (h : Leaves exact_ ps p es ps') (hp : ps.peer p = some p) {q : SessionPtr}
    (hqp : q ≠ p) : ps'.peer q = some q ↔ ps.peer q = some q := by
  rw [h.peer]
  split
  · rename_i hfd
    rw [Process.peer, hfd, ← Process.peer, hp]
    simp [Ne.symm hqp]
  · rfl

theorem Leaves.inv (h : Leaves exact_ ps p es ps') (hi : ps.Inv) (ha : ps.alive p = true) :
    ps'.Inv := by
  have hpeer := (hi.isOpen p ha).peer
  refine ⟨h.wellFormed, fun q hq => ?_, fun q hq => ?_, fun n q hq => ?_, fun q hq => ?_⟩
  · obtain ⟨hn, hold⟩ := (h.alive q).mp hq
    have hqp : q ≠ p := fun hqp => hn (congrArg SessionPtr.name hqp)
    have ho := hi.isOpen q hold
    exact ho.same ((h.peer_iff hpeer hqp).mpr ho.peer) (h.io q hqp) (h.epoll q hqp)
  · by_cases hqp : q = p
    · subst hqp
      have hnone : ps'.peer q = none := by rw [h.peer, if_pos rfl]
      rw [h.gone, hnone]
      exact (and_iff_right (Option.some_ne_none q).symm).symm
    · have hold : ps.alive q = false := by
        by_contra hold
        have hold := Bool.eq_true_of_not_eq_false hold
        have halive := (h.alive q).mpr ⟨fun hn => hqp (alive_unique ha hold hn), hold⟩
        rw [hq] at halive
        cases halive
      exact hi.left_same hold (h.epoll q hqp) (h.peer_iff hpeer hqp) (h.copies q)
  · rw [h.fds, Function.update_apply] at hq
    rw [h.next]
    split at hq
    · cases hq
    · exact hi.known n q hq
  · rw [h.next]
    exact hi.copied_same (h.copies q) hq

/-- A connection that is accepted: it has a number, a free descriptor leads to it, and
the rest is as before. -/
structure Accepts (ps : Process) (p : SessionPtr) (fd : Nat) (ps' : Process) : Prop where
  io : ∀ q, ps'.io q = if q = p then .new fd else ps.io q
  fds : ps'.fds = Function.update ps.fds fd (some p)
  free : ps.fds fd = none
  copies : ps'.copies = ps.copies
  engine : ps'.engine = ps.engine
  wellFormed : ps'.server.WellFormed
  next : ps'.server.nextSessionId = ps.server.nextSessionId + 1
  number : p.id = ps.server.nextSessionId
  reached : ∃ events, ps'.server = ps.server.run events

/-- One that epoll takes has a new session. -/
structure Opens (ps : Process) (p : SessionPtr) (fd : Nat) (ps' : Process) : Prop
    extends Accepts ps p fd ps' where
  epoll : ∀ q, ps'.epoll q = if q = p then some epollIn else ps.epoll q
  alive : ∀ q, ps'.alive q = true ↔ q = p ∨ ps.alive q = true

/-- One that epoll does not take is open, and has no session. -/
structure Refuses (ps : Process) (p : SessionPtr) (fd : Nat) (ps' : Process) : Prop
    extends Accepts ps p fd ps' where
  epoll : ps'.epoll = ps.epoll
  alive : ∀ q, ps'.alive q = ps.alive q

theorem acceptProc_cases (hi : ps.Inv) (fired : UInt32) (c : Connection)
    (hnew : ps.NewPeer (.listen fired (some c))) :
    ∃ p, ((ps.acceptProc (some c)).2 = [] ∧ Refuses ps p c.fd (ps.acceptProc (some c)).1) ∨
      (ps.acceptProc (some c)).2 = [.accepted p] ∧ Opens ps p c.fd (ps.acceptProc (some c)).1 := by
  obtain ⟨addr, fd, attached⟩ := c
  have hwf := Server.acceptProc_wellFormed hi.wellFormed addr attached
  refine ⟨⟨addr, ps.server.nextSessionId⟩, ?_⟩
  cases attached with
  | false =>
      exact .inl ⟨rfl,
        ⟨fun q => Function.update_apply _ _ _ _, rfl, hnew.1, rfl, rfl, hwf, rfl, rfl,
        [.accept addr false], rfl⟩, rfl, fun _ => rfl⟩
  | true =>
      refine .inr ⟨rfl,
        ⟨fun q => Function.update_apply _ _ _ _, rfl, hnew.1, rfl, rfl, hwf, rfl, rfl,
        [.accept addr true], rfl⟩, fun q => ?_, fun q => ?_⟩
      · refine (Function.update_apply _ _ _ _).trans ?_
        rw [modifyIo_io]
        rfl
      · -- no live session has the name of the new one
        rw [alive_iff, alive_iff]
        change (find? q.name (ps.server.acceptProc addr true).sessions).map _ = _ ↔ _
        rw [Server.acceptProc_find]
        split
        · rename_i hn
          rw [Option.map_some, Option.some.injEq]
          constructor
          · exact fun h => .inl h.symm
          · rintro (rfl | hq)
            · rfl
            · exact absurd hn (hnew.2 q (alive_iff.mpr hq))
        · rename_i hn
          constructor
          · exact .inr
          · rintro (rfl | hq)
            · exact absurd rfl hn
            · exact hq

/-- The number of a live session is smaller than any that is still to be given. -/
theorem Inv.old (hi : ps.Inv) (h : ps.alive p = true) : p.id < ps.server.nextSessionId := by
  obtain ⟨sess, hf, rfl⟩ := Option.map_eq_some_iff.mp (alive_iff.mp h)
  exact hi.wellFormed.sessionOld _ sess hf

theorem Accepts.peer_iff {fd : Nat} (h : Accepts ps p fd ps') {q : SessionPtr} (hqp : q ≠ p) :
    ps'.peer q = some q ↔ ps.peer q = some q := by
  rw [Process.peer, Process.peer, h.io, if_neg hqp, h.fds, Function.update_apply]
  split
  · rename_i hfd
    rw [hfd, h.free]
    simp [Ne.symm hqp]
  · rfl

/-- What is left of closed sessions is left behind an accept. -/
theorem Accepts.left {fd : Nat} (h : Accepts ps p fd ps') (hi : ps.Inv) {q : SessionPtr}
    (ha : ps.alive q = false) (hep : ps'.epoll q = ps.epoll q) :
    (ps'.epoll q).isSome ↔ ps'.peer q ≠ some q ∧ 0 < ps'.copies q := by
  by_cases hqp : q = p
  · -- the number of the new one is nobody's, so nobody has a copy of it
    have hnone : ps.copies q = 0 := by
      by_contra hpos
      have hold := hi.copied q (Nat.pos_of_ne_zero hpos)
      rw [hqp, h.number] at hold
      exact Nat.lt_irrefl _ hold
    rw [hep, hi.left q ha, h.copies, hnone]
    simp
  · exact hi.left_same ha hep (h.peer_iff hqp) fun _ => congrFun h.copies q

theorem Accepts.known {fd : Nat} (h : Accepts ps p fd ps') (hi : ps.Inv) {n : Nat} {q : SessionPtr}
    (hq : ps'.fds n = some q) : q.id < ps'.server.nextSessionId := by
  rw [h.fds, Function.update_apply] at hq
  rw [h.next]
  split at hq
  · cases hq
    rw [h.number]
    exact Nat.lt_succ_self _
  · exact Nat.lt_succ_of_lt (hi.known n q hq)

theorem Accepts.copied {fd : Nat} (h : Accepts ps p fd ps') (hi : ps.Inv) {q : SessionPtr}
    (hq : 0 < ps'.copies q) : q.id < ps'.server.nextSessionId := by
  rw [h.copies] at hq
  rw [h.next]
  exact Nat.lt_succ_of_lt (hi.copied q hq)

theorem Opens.inv {fd : Nat} (h : Opens ps p fd ps') (hi : ps.Inv) : ps'.Inv := by
  refine ⟨h.wellFormed, fun q hq => ?_, fun q hq => ?_, fun n q => h.known hi, fun q => h.copied hi⟩
  · by_cases hqp : q = p
    · subst hqp
      have hio : ps'.io q = .new fd := by rw [h.io, if_pos rfl]
      refine ⟨?_, ?_, .inl ?_, fun hne => ?_⟩
      · rw [peer, hio, h.fds]
        exact Function.update_self _ _ _
      · rw [h.epoll, if_pos rfl, hio]
        rfl
      · rw [hio]
        rfl
      · rw [hio] at hne
        exact absurd (readable_eq_nil rfl) hne
    · have ho := hi.isOpen q (((h.alive q).mp hq).resolve_left hqp)
      exact ho.same ((h.peer_iff hqp).mpr ho.peer) (by rw [h.io, if_neg hqp])
        (by rw [h.epoll, if_neg hqp])
  · rw [← Bool.not_eq_true, h.alive, not_or, Bool.not_eq_true] at hq
    exact h.left hi hq.2 (by rw [h.epoll, if_neg hq.1])

theorem Refuses.inv {fd : Nat} (h : Refuses ps p fd ps') (hi : ps.Inv) : ps'.Inv := by
  refine ⟨h.wellFormed, fun q hq => ?_, fun q hq => ?_, fun n q => h.known hi, fun q => h.copied hi⟩
  · rw [h.alive] at hq
    have hqp : q ≠ p := fun hqp => by
      have hold := hi.old hq
      rw [hqp, h.number] at hold
      exact Nat.lt_irrefl _ hold
    have ho := hi.isOpen q hq
    exact ho.same ((h.peer_iff hqp).mpr ho.peer) (by rw [h.io, if_neg hqp]) (congrFun h.epoll q)
  · rw [h.alive] at hq
    exact h.left hi hq (congrFun h.epoll q)

/-! ## Children of `bgsave` -/

@[simp] theorem release_alive (ps : Process) (p q : SessionPtr) :
    (ps.release p).alive q = ps.alive q := rfl

theorem release_epoll (ps : Process) (p q : SessionPtr) : (ps.release p).epoll q
    = if (ps.copies p - 1 = 0 ∧ ps.peer p ≠ some p) ∧ q = p then none else ps.epoll q := by
  rw [release]
  dsimp only
  by_cases hgone : ps.copies p - 1 = 0 ∧ ps.peer p ≠ some p
  · rw [if_pos hgone, Function.update_apply]
    simp only [hgone, true_and, ne_eq, not_false_eq_true]
  · rw [if_neg hgone, if_neg fun h => hgone h.1]

/-- The server keeps what a child closes. -/
theorem release_inv (hi : ps.Inv) (p : SessionPtr) : (ps.release p).Inv := by
  have hcopies : ∀ q, (ps.release p).copies q ≤ ps.copies q := fun q => by
    rw [release]
    dsimp only
    rw [Function.update_apply]
    split
    · rename_i hqp
      rw [hqp]
      exact Nat.sub_le _ _
    · exact Nat.le_refl _
  refine ⟨hi.wellFormed, fun q hq => ?_, fun q hq => ?_, hi.known, fun q hq =>
    hi.copied q (Nat.lt_of_lt_of_le hq (hcopies q))⟩
  · have ho := hi.isOpen q hq
    refine ho.same ho.peer rfl ?_
    rw [release_epoll, if_neg]
    rintro ⟨⟨-, hne⟩, rfl⟩
    exact hne ho.peer
  · have hleft := hi.left q hq
    rw [release_epoll]
    change _ ↔ ps.peer q ≠ some q ∧ 0 < Function.update ps.copies p (ps.copies p - 1) q
    rw [Function.update_apply]
    by_cases hqp : q = p
    · subst hqp
      rw [if_pos rfl]
      split
      · rename_i hgone
        simp [hgone.1.1]
      · rename_i hgone
        rw [hleft]
        refine and_congr_right fun hne => ?_
        have : ps.copies q - 1 ≠ 0 := fun h => hgone ⟨⟨h, hne⟩, rfl⟩
        omega
    · rw [if_neg hqp, if_neg fun h => hqp h.2]
      exact hleft

@[simp] theorem polled_alive (ps : Process) (t : Turn) (q : SessionPtr) :
    (ps.polled t).alive q = ps.alive q := by
  rw [polled]
  induction t.released generalizing ps with
  | nil => rfl
  | cons p released ih => exact ih (ps.release p)

theorem polled_io (ps : Process) (t : Turn) : (ps.polled t).io = ps.io := by
  rw [polled]
  induction t.released generalizing ps with
  | nil => rfl
  | cons p released ih => exact ih (ps.release p)

theorem polled_inv (hi : ps.Inv) (t : Turn) : (ps.polled t).Inv := by
  rw [polled]
  induction t.released generalizing ps with
  | nil => exact hi
  | cons p released ih => exact ih (release_inv hi p)

end

/-! ## The account of a run -/

/-- What the effects so far say about the state: the engine has run the commands
and timers among them and given their replies, and for each session the
chunks give the requests, and the replies are what was sent and what is
pending. -/
structure Accounts (exact_ : Prop) (s : Engine) (ps : Process) (es : List Effect) : Prop where
  engine : ps.engine = es.foldl Engine.after s
  answered : Guarded Engine.after (fun s e => e.AnsweredBy s) s es
  reached : ∃ events, ps.server = Server.new.run events
  parses : ∀ p, ∃ st, Parses p es .new st ∧ (ps.alive p = true → (ps.io p).readState = st)
  flow : exact_ → ∀ p, flushed p es <+: (repliesTo p es).flatten ∧
    (ps.alive p = true → (repliesTo p es).flatten = flushed p es ++ (ps.io p).writeBuf.readable)
  fresh : ∀ p, ps.server.nextSessionId ≤ p.id → Quiet p es

theorem accounts_new {exact_ : Prop} (engine : Engine) :
    Accounts exact_ engine (new engine) [] where
  engine := rfl
  answered := trivial
  reached := ⟨[], rfl⟩
  parses _ := ⟨.new, .nothing _ rfl rfl rfl, fun h => Bool.noConfusion h⟩
  flow _ _ := ⟨List.prefix_refl _, fun h => Bool.noConfusion h⟩
  fresh _ _ := List.forall_mem_nil _

section

variable {exact_ : Prop} {s : Engine} {ps ps' : Process} {p : SessionPtr} {es es' : List Effect}

theorem reached_trans {sv sv' sv'' : Server} (h : ∃ events, sv' = sv.run events)
    (h' : ∃ events, sv'' = sv'.run events) : ∃ events, sv'' = sv.run events := by
  obtain ⟨events, he⟩ := h
  obtain ⟨events', he'⟩ := h'
  refine ⟨events ++ events', ?_⟩
  rw [Server.run, List.foldl_append]
  rw [Server.run] at he he'
  rw [← he, ← he']

/-- Effects that are about one session at most, behind those of a run. -/
theorem Accounts.step (h : Accounts exact_ s ps es)
    (hengine : ps'.engine = es'.foldl Engine.after ps.engine)
    (hanswered : Guarded Engine.after (fun s e => e.AnsweredBy s) ps.engine es')
    (hreached : ∃ events, ps'.server = ps.server.run events)
    (hnext : ps.server.nextSessionId ≤ ps'.server.nextSessionId)
    (hother : ∀ q, q ≠ p →
      Quiet q es' ∧ (ps'.alive q = true → ps.alive q = true ∧ ps'.io q = ps.io q))
    (hparses : ∀ st, Parses p es .new st → (ps.alive p = true → (ps.io p).readState = st) →
      ∃ st', Parses p (es ++ es') .new st' ∧ (ps'.alive p = true → (ps'.io p).readState = st'))
    (hflow : exact_ → flushed p (es ++ es') <+: (repliesTo p (es ++ es')).flatten ∧
      (ps'.alive p = true → (repliesTo p (es ++ es')).flatten
        = flushed p (es ++ es') ++ (ps'.io p).writeBuf.readable))
    (hfresh : ps'.server.nextSessionId ≤ p.id → Quiet p es') :
    Accounts exact_ s ps' (es ++ es') where
  engine := by rw [hengine, h.engine, List.foldl_append]
  answered := h.answered.append es es' (h.engine ▸ hanswered)
  reached := reached_trans h.reached hreached
  parses q := by
    by_cases hqp : q = p
    · subst hqp
      obtain ⟨st, hst, hread⟩ := h.parses q
      exact hparses st hst hread
    · obtain ⟨hquiet, hkept⟩ := hother q hqp
      obtain ⟨hr, -, hc, hq⟩ := hquiet.nothing
      obtain ⟨st, hst, hread⟩ := h.parses q
      refine ⟨st, hst.trans (.nothing st hc hq hr), fun ha => ?_⟩
      obtain ⟨hold, hio⟩ := hkept ha
      rw [hio]
      exact hread hold
  flow he q := by
    by_cases hqp : q = p
    · subst hqp
      exact hflow he
    · obtain ⟨hquiet, hkept⟩ := hother q hqp
      obtain ⟨hr, hs, -, -⟩ := hquiet.nothing
      rw [repliesTo_append, flushed_append, hr, hs, List.append_nil, List.append_nil]
      refine ⟨(h.flow he q).1, fun ha => ?_⟩
      obtain ⟨hold, hio⟩ := hkept ha
      rw [hio]
      exact (h.flow he q).2 hold
  fresh q hq := by
    refine (h.fresh q (Nat.le_trans hnext hq)).append ?_
    by_cases hqp : q = p
    · subst hqp
      exact hfresh hq
    · exact (hother q hqp).1

theorem Serves.accounts (h : Serves exact_ ps p es' ps') (hi : ps.Inv) (ha : ps.alive p = true)
    (hacc : Accounts exact_ s ps es) : Accounts exact_ s ps' (es ++ es') := by
  refine hacc.step h.engine h.answered h.tables.reached (Nat.le_of_eq h.tables.next.symm)
    (fun q hq => ⟨h.quiet q hq, fun hq' => ⟨(h.alive q).symm.trans hq', h.io q hq⟩⟩)
    (fun st hst hread => ⟨_, hst.trans (hread ha ▸ h.parses), fun _ => rfl⟩) (fun he => ?_)
    fun hp => ?_
  · have hbytes : (repliesTo p (es ++ es')).flatten
        = flushed p (es ++ es') ++ (ps'.io p).writeBuf.readable := by
      rw [repliesTo_append, List.flatten_append, (hacc.flow he p).2 ha, List.append_assoc,
        h.flow he, flushed_append, List.append_assoc]
    exact ⟨⟨_, hbytes.symm⟩, fun _ => hbytes⟩
  · have hold := hi.old ha
    rw [h.tables.next] at hp
    omega

theorem Leaves.accounts (h : Leaves exact_ ps p es' ps') (hi : ps.Inv) (ha : ps.alive p = true)
    (hacc : Accounts exact_ s ps es) : Accounts exact_ s ps' (es ++ es') := by
  have hgone : ps'.alive p = true → False := fun hp => ((h.alive p).mp hp).1 rfl
  refine hacc.step h.engine h.answered h.reached (Nat.le_of_eq h.next.symm)
    (fun q hq => ⟨h.quiet q hq, fun hq' => ⟨((h.alive q).mp hq').2, h.io q hq⟩⟩)
    (fun st hst hread => ⟨_, hst.trans (hread ha ▸ h.parses), fun hp => (hgone hp).elim⟩)
    (fun he => ⟨?_, fun hp => (hgone hp).elim⟩) fun hp => ?_
  · obtain ⟨rest, hrest⟩ := h.flow he
    refine ⟨rest, ?_⟩
    rw [repliesTo_append, List.flatten_append, (hacc.flow he p).2 ha, flushed_append,
      List.append_assoc, hrest, List.append_assoc]
  · have hold := hi.old ha
    rw [h.next] at hp
    omega

theorem Opens.accounts {fd : Nat} (h : Opens ps p fd ps') (hacc : Accounts exact_ s ps es) :
    Accounts exact_ s ps' (es ++ [.accepted p]) := by
  have hfresh : Quiet p es := hacc.fresh p (Nat.le_of_eq h.number.symm)
  obtain ⟨hr, hs, hc, hq⟩ := hfresh.nothing
  have hio : ps'.io p = .new fd := by rw [h.io, if_pos rfl]
  refine hacc.step h.engine ⟨trivial, trivial⟩ h.reached (by rw [h.next]; omega)
    (fun q hq => ⟨fun e he => ?_, fun hq' => ⟨((h.alive q).mp hq').resolve_left hq, ?_⟩⟩)
    (fun _ _ _ => ⟨.new, ?_, fun _ => by rw [hio]; rfl⟩) (fun _ => ?_) fun hp => ?_
  · rw [List.mem_singleton.mp he]
    exact fun hh => hq (Option.some.inj hh).symm
  · rw [h.io, if_neg hq]
  · refine .nothing _ ?_ ?_ ?_
    · rw [chunksOf_append, hc]
      rfl
    · rw [requestsOf_append, hq]
      rfl
    · rw [repliesTo_append, hr]
      rfl
  · rw [repliesTo_append, hr, flushed_append, hs, hio]
    exact ⟨List.prefix_refl _, fun _ => (readable_eq_nil rfl).symm⟩
  · rw [h.next, h.number] at hp
    omega

theorem Refuses.accounts {fd : Nat} (h : Refuses ps p fd ps') (hi : ps.Inv)
    (hacc : Accounts exact_ s ps es) : Accounts exact_ s ps' es := by
  have hgone : ps'.alive p = true → False := fun ha => by
    rw [h.alive] at ha
    have hold := hi.old ha
    rw [h.number] at hold
    exact Nat.lt_irrefl _ hold
  have hstep : Accounts exact_ s ps' (es ++ []) := hacc.step (p := p) h.engine trivial h.reached
    (by rw [h.next]; omega)
    (fun q hq =>
      ⟨List.forall_mem_nil _, fun ha => ⟨(h.alive q).symm.trans ha, by rw [h.io, if_neg hq]⟩⟩)
    (fun st hst _ => ⟨st, by rwa [List.append_nil], fun ha => (hgone ha).elim⟩)
    (fun he => ⟨by rw [List.append_nil]; exact (hacc.flow he p).1, fun ha => (hgone ha).elim⟩)
    fun _ => List.forall_mem_nil _
  rwa [List.append_nil] at hstep

/-- What children close is not in the account. -/
theorem release_accounts (hacc : Accounts exact_ s ps es) (q : SessionPtr) :
    Accounts exact_ s (ps.release q) es :=
  ⟨hacc.engine, hacc.answered, hacc.reached, hacc.parses, hacc.flow, hacc.fresh⟩

end

/-! ## Runs -/

section

variable {exact_ exact' : Prop} {s : Engine} {ps ps' : Process} {p : SessionPtr} {es : List Effect}

theorem Serves.mono (h : Serves exact_ ps p es ps') (himp : exact' → exact_) :
    Serves exact' ps p es ps' :=
  { h with flow := fun he => h.flow (himp he) }

theorem Leaves.mono (h : Leaves exact_ ps p es ps') (himp : exact' → exact_) :
    Leaves exact' ps p es ps' :=
  { h with flow := fun he => h.flow (himp he) }

/-- An entry that is served has a live session. -/
theorem ready_alive {r : Ready} {es' : List Effect} (h : ps.ready r = .ok (ps', es')) :
    ∀ p ∈ r.session?, ps.alive p = true := by
  cases r with
  | listen fired connection => exact fun p hp => by cases hp
  | session q fired io =>
      rintro p ⟨⟩
      cases ha : ps.alive q with
      | true => rfl
      | false =>
          rw [ready, ha, Bool.not_false, if_pos rfl] at h
          cases h

/-- What an entry does: nothing, something about a new connection, or one of the
sessions is served or gone. -/
theorem ready_cases {es' : List Effect} (hi : ps.Inv) {r : Ready} (hnew : ps.NewPeer r)
    (h : ps.ready r = .ok (ps', es')) :
    (es' = [] ∧ ps' = ps) ∨ (∃ p fd, es' = [] ∧ Refuses ps p fd ps') ∨
      (∃ p fd, es' = [.accepted p] ∧ Opens ps p fd ps') ∨
      ∃ p ∈ r.session?, Leaves r.SendsExactly ps p es' ps' ∨
        Serves r.SendsExactly ps p es' ps' := by
  have ha := ready_alive h
  cases r with
  | listen fired connection =>
      rw [ready, Except.ok.injEq] at h
      split at h
      · cases connection with
        | none =>
            cases h
            exact .inl ⟨rfl, rfl⟩
        | some c =>
            obtain ⟨p, ⟨hes, hcase⟩ | ⟨hes, hcase⟩⟩ := acceptProc_cases hi fired c hnew
            · rw [h] at hes hcase
              exact .inr (.inl ⟨p, c.fd, hes, hcase⟩)
            · rw [h] at hes hcase
              exact .inr (.inr (.inl ⟨p, c.fd, hes, hcase⟩))
      · cases h
        exact .inl ⟨rfl, rfl⟩
  | session p fired io =>
      have hp : ps.alive p = true := ha p rfl
      exact .inr (.inr (.inr ⟨p, rfl, session_cases hi.wellFormed (hi.isOpen p hp) hp h⟩))

/-- An entry keeps the invariant, and no other session is lost. -/
theorem ready_inv {es' : List Effect} (hi : ps.Inv) {r : Ready} (hnew : ps.NewPeer r)
    (h : ps.ready r = .ok (ps', es')) :
    ps'.Inv ∧ ∀ q, q ∉ r.session? → ps.alive q = true → ps'.alive q = true := by
  have ha := ready_alive h
  rcases ready_cases hi hnew h with ⟨-, rfl⟩ | ⟨p, fd, -, hr⟩ | ⟨p, fd, -, ho⟩ | ⟨p, hp, hl | hs⟩
  · exact ⟨hi, fun _ _ hq => hq⟩
  · exact ⟨hr.inv hi, fun q _ hq => (hr.alive q).trans hq⟩
  · exact ⟨ho.inv hi, fun q _ hq => (ho.alive q).mpr (.inr hq)⟩
  · refine ⟨hl.inv hi (ha p hp), fun q hq hold => (hl.alive q).mpr ⟨fun hn => hq ?_, hold⟩⟩
    rw [alive_unique (ha p hp) hold hn]
    exact hp
  · exact ⟨hs.inv hi (ha p hp), fun q _ hold => (hs.alive q).trans hold⟩

/-- An entry keeps the account. -/
theorem ready_accounts {es' : List Effect} (hi : ps.Inv) (hacc : Accounts exact_ s ps es)
    {r : Ready}
    (hnew : ps.NewPeer r) (hexact : exact_ → r.SendsExactly) (h : ps.ready r = .ok (ps', es')) :
    Accounts exact_ s ps' (es ++ es') := by
  have ha := ready_alive h
  rcases ready_cases hi hnew h with
    ⟨rfl, rfl⟩ | ⟨p, fd, rfl, hr⟩ | ⟨p, fd, rfl, ho⟩ | ⟨p, hp, hl | hs⟩
  · rw [List.append_nil]
    exact hacc
  · rw [List.append_nil]
    exact hr.accounts hi hacc
  · exact ho.accounts hacc
  · exact (hl.mono hexact).accounts hi (ha p hp) hacc
  · exact (hs.mono hexact).accounts hi (ha p hp) hacc

/-! ## Sessions that are gone -/

theorem handleAll_not_dead {envs : Nat → CommandEnv} {q : SessionPtr} :
    ∀ (cs : List CommandCache) (i : Nat) (ps : Process),
      handleAll p envs i cs ps ≠ .error (.dead q)
  | [], _, _ => fun h => by cases h
  | c :: cs, i, ps => by
      intro h
      rw [handleAll, bind_eq_error] at h
      rcases h with hc | ⟨r, -, h⟩
      · unfold handleCommand at hc
        split at hc
        · cases hc
        · dsimp only at hc
          split at hc <;> cases hc
      · rcases bind_eq_error.mp h with hr | ⟨_, _, hr⟩
        · exact handleAll_not_dead cs (i + 1) r.1 hr
        · cases hr

theorem readProc_not_dead (ps : Process) (p : SessionPtr) (io : ReadyIo) (q : SessionPtr) :
    ps.readProc p io ≠ .error (.dead q) := by
  intro h
  unfold readProc at h
  dsimp only at h
  split at h
  · cases h
  · rcases bind_eq_error.mp h with hall | ⟨r, _, h⟩
    · exact handleAll_not_dead _ _ _ hall
    · split at h <;> cases h

/-- An entry that uses a session that is gone is the entry of that session. -/
theorem ready_dead {r : Ready} {q : SessionPtr} (h : ps.ready r = .error (.dead q)) :
    r.session? = some q ∧ ps.alive q = false := by
  cases r with
  | listen fired connection => cases h
  | session p fired io =>
      rw [ready] at h
      cases ha : ps.alive p with
      | false =>
          rw [ha, Bool.not_false, if_pos rfl] at h
          cases h
          exact ⟨rfl, ha⟩
      | true =>
          rw [ha, Bool.not_true, if_neg Bool.false_ne_true, bind_eq_error] at h
          rcases h with hr | ⟨r, -, h⟩
          · unfold fireRead at hr
            split at hr
            · exact absurd hr (readProc_not_dead _ _ _ _)
            · cases hr
          · dsimp only at h
            split at h
            · cases h
            · split at h <;> cases h

/-- A session that is gone when its entry comes was gone when the turn began: the
entries before it are for other sessions. -/
theorem batch_dead {q : SessionPtr} : ∀ (batch : List Ready) {ps : Process}, ps.Inv →
    (batch.filterMap Ready.session?).Nodup → GuardedE ready NewPeer ps batch →
    traceE ready ps batch = .error (.dead q) →
      q ∈ batch.filterMap Ready.session? ∧ ps.alive q = false
  | [], _, _, _, _, h => by cases h
  | r :: batch, ps, hi, honce, hpeers, h => by
      rw [List.filterMap_cons] at honce ⊢
      rw [traceE, bind_eq_error] at h
      rcases h with h | ⟨⟨ps₁, es₁⟩, h₁, h⟩
      · obtain ⟨hr, hdead⟩ := ready_dead h
        rw [hr]
        exact ⟨List.mem_cons_self, hdead⟩
      · rcases bind_eq_error.mp h with h | ⟨_, _, h⟩
        · obtain ⟨hi₁, hkept⟩ := ready_inv hi hpeers.1 h₁
          have hrest : (batch.filterMap Ready.session?).Nodup := by
            cases hs : r.session? with
            | none =>
                rw [hs] at honce
                exact honce
            | some p =>
                rw [hs] at honce
                exact (List.nodup_cons.mp honce).2
          obtain ⟨hmem, hdead⟩ := batch_dead batch hi₁ hrest (hpeers.2 ps₁ es₁ h₁) h
          refine ⟨?_, Bool.eq_false_iff.mpr fun hold => ?_⟩
          · cases r.session? with
            | none => exact hmem
            | some p => exact List.mem_cons_of_mem p hmem
          · have hne : q ∉ r.session? := fun hq => by
              rw [Option.mem_def.mp hq] at honce
              exact (List.nodup_cons.mp honce).1 hmem
            rw [hkept q hne hold] at hdead
            cases hdead
        · cases h

end

/-! ## The rule of runs -/

/-- What entries, time events and children keep of the process and the effects so
far. Only the entries with `ok` count. -/
structure Kept (ok : Process → Ready → Prop) (Q : Process → List Effect → Prop) : Prop where
  ready : ∀ {ps ps' : Process} {es es' : List Effect} {r : Ready}, ps.Inv → Q ps es →
    ps.NewPeer r → ok ps r → ps.ready r = .ok (ps', es') → Q ps' (es ++ es')
  release : ∀ {ps : Process} {es : List Effect} (p : SessionPtr), Q ps es → Q (ps.release p) es
  timers : ∀ {ps : Process} {es : List Effect} (now : Nat) (stale : Bytes), Q ps es →
    Q { ps with engine := ps.engine.handleFiredTimeEvent now stale } (es ++ [.timers now stale])

/-- Every entry of a turn has `ok` when it comes. -/
def Meets (ok : Process → Ready → Prop) (ps : Process) (t : Turn) : Prop :=
  GuardedE ready ok (ps.polled t) t.batch

/-- The kernel reports every turn of a run rightly. -/
def Conforms (ps : Process) (turns : List Turn) : Prop := GuardedE turn Reported ps turns

section

variable {ok : Process → Ready → Prop} {Q : Process → List Effect → Prop} {ps ps' : Process}
  {es : List Effect}

/-- The entries of a turn. -/
theorem Kept.batch (hk : Kept ok Q) {batch : List Ready} (hi : ps.Inv) (hq : Q ps es)
    (hpeers : GuardedE Process.ready NewPeer ps batch) (hok : GuardedE Process.ready ok ps batch)
    {out : List (List Effect)} (h : traceE Process.ready ps batch = .ok (ps', out)) :
    ps'.Inv ∧ Q ps' (es ++ out.flatten) := by
  let P : List Ready → Process → List (List Effect) → Prop := fun batch ps out =>
    (ps.Inv ∧ Q ps (es ++ out.flatten)) ∧
      GuardedE Process.ready NewPeer ps batch ∧ GuardedE Process.ready ok ps batch
  have hstep : ∀ r batch ps out ps' es', P (r :: batch) ps out → ps.ready r = .ok (ps', es') →
      P batch ps' (out ++ [es']) := by
    rintro r batch ps out ps₁ es₁ ⟨⟨hi, hq⟩, hpeers, hok⟩ h₁
    refine ⟨⟨(ready_inv hi hpeers.1 h₁).1, ?_⟩, hpeers.2 ps₁ es₁ h₁, hok.2 ps₁ es₁ h₁⟩
    rw [List.flatten_append, List.flatten_singleton, ← List.append_assoc]
    exact hk.ready hi hq hpeers.1 hok.1 h₁
  have hstart : P batch ps [] := by
    refine ⟨⟨hi, ?_⟩, hpeers, hok⟩
    rw [List.flatten_nil, List.append_nil]
    exact hq
  exact (traceE_keeps hstep batch hstart h).1

/-- The time events are handled by the engine alone. -/
theorem timers_inv (hi : ps.Inv) (now : Nat) (stale : Bytes) :
    Process.Inv { ps with engine := ps.engine.handleFiredTimeEvent now stale } :=
  ⟨hi.wellFormed, fun p hp => (hi.isOpen p hp).same (hi.isOpen p hp).peer rfl rfl, hi.left,
    hi.known, hi.copied⟩

theorem Kept.polled (hk : Kept ok Q) (hq : Q ps es) (t : Turn) : Q (ps.polled t) es := by
  rw [Process.polled]
  induction t.released generalizing ps with
  | nil => exact hq
  | cons p released ih => exact ih (hk.release p hq)

/-- A turn the kernel reports rightly. -/
theorem Kept.turn (hk : Kept ok Q) (hi : ps.Inv) (hq : Q ps es) {t : Turn} (ht : ps.Reported t)
    (hok : ps.Meets ok t) {es' : List Effect} (h : ps.turn t = .ok (ps', es')) :
    ps'.Inv ∧ Q ps' (es ++ es') := by
  rw [Process.turn, bind_eq_ok] at h
  obtain ⟨⟨ps₁, out⟩, h₁, h⟩ := h
  cases h
  obtain ⟨hi₁, hq₁⟩ := hk.batch (polled_inv hi t) (hk.polled hq t) ht.peers hok h₁
  refine ⟨timers_inv hi₁ t.now t.stale, ?_⟩
  rw [← List.append_assoc]
  exact hk.timers t.now t.stale hq₁

/-- What is kept holds after every run the kernel reports rightly. -/
theorem Kept.run (hk : Kept ok Q) (hi : ps.Inv) (hq : Q ps es) {turns : List Turn}
    (hc : ps.Conforms turns) (hok : GuardedE Process.turn (Meets ok) ps turns) {es' : List Effect}
    (h : ps.run turns = .ok (ps', es')) : ps'.Inv ∧ Q ps' (es ++ es') := by
  let P : List Turn → Process → List (List Effect) → Prop := fun turns ps out =>
    (ps.Inv ∧ Q ps (es ++ out.flatten)) ∧ ps.Conforms turns ∧
      GuardedE Process.turn (Meets ok) ps turns
  have hstep : ∀ t turns ps out ps' es', P (t :: turns) ps out → ps.turn t = .ok (ps', es') →
      P turns ps' (out ++ [es']) := by
    rintro t turns ps out ps₁ es₁ ⟨⟨hi, hq⟩, hc, hok⟩ h₁
    refine ⟨?_, hc.2 ps₁ es₁ h₁, hok.2 ps₁ es₁ h₁⟩
    rw [List.flatten_append, List.flatten_singleton, ← List.append_assoc]
    exact hk.turn hi hq hc.1 hok.1 h₁
  have hstart : P turns ps [] := by
    refine ⟨⟨hi, ?_⟩, hc, hok⟩
    rw [List.flatten_nil, List.append_nil]
    exact hq
  rw [Process.run, bind_eq_ok] at h
  obtain ⟨⟨ps₁, out⟩, h₁, h⟩ := h
  cases h
  exact (traceE_keeps hstep turns hstart h₁).1

/-- Entries that have `ok` whatever comes before them. -/
theorem meets_of_forall {ok : Ready → Prop} {turns : List Turn}
    (h : ∀ t ∈ turns, ∀ r ∈ t.batch, ok r) :
    GuardedE Process.turn (Meets fun _ => ok) ps turns :=
  guardedE_of_forall fun t ht _ => guardedE_of_forall fun r hr _ => h t ht r hr

end

section

variable {exact_ : Prop} {s : Engine} {ps : Process} {es : List Effect}

theorem timers_accounts (hacc : Accounts exact_ s ps es) (now : Nat) (stale : Bytes) :
    Accounts exact_ s { ps with engine := ps.engine.handleFiredTimeEvent now stale }
      (es ++ [.timers now stale]) := by
  have hquiet : ∀ p, Quiet p [Effect.timers now stale] := fun p e he => by
    rw [List.mem_singleton.mp he]
    exact (Option.some_ne_none p).symm
  refine ⟨by rw [hacc.engine, List.foldl_append]; rfl, hacc.answered.append _ _ ⟨trivial, trivial⟩,
    hacc.reached, fun p => ?_, fun he p => ?_, fun p hp => (hacc.fresh p hp).append (hquiet p)⟩
  · obtain ⟨hr, -, hc, hq⟩ := (hquiet p).nothing
    obtain ⟨st, hst, hread⟩ := hacc.parses p
    exact ⟨st, hst.trans (.nothing st hc hq hr), hread⟩
  · obtain ⟨hr, hs, -, -⟩ := (hquiet p).nothing
    rw [repliesTo_append, flushed_append, hr, hs, List.append_nil, List.append_nil]
    exact hacc.flow he p

/-- The account is kept. -/
theorem accounts_kept (exact_ : Prop) (s : Engine) :
    Kept (fun _ r => exact_ → r.SendsExactly) (Accounts exact_ s) where
  ready hi hacc hnew hexact h := ready_accounts hi hacc hnew hexact h
  release p hacc := release_accounts hacc p
  timers now stale hacc := timers_accounts hacc now stale

/-- A run from a state that keeps its invariant and its account. -/
theorem run_keeps_from (exact_ : Prop) (hi : ps.Inv) (hacc : Accounts exact_ s ps es)
    {turns : List Turn} (hc : ps.Conforms turns)
    (hexact : ∀ t ∈ turns, ∀ r ∈ t.batch, exact_ → r.SendsExactly) {ps' : Process}
    {es' : List Effect} (h : ps.run turns = .ok (ps', es')) :
    ps'.Inv ∧ Accounts exact_ s ps' (es ++ es') :=
  (accounts_kept exact_ s).run hi hacc hc (meets_of_forall hexact) h

/-- A run from the start of the server. -/
theorem run_keeps (exact_ : Prop) {turns : List Turn} (hc : (new s).Conforms turns)
    (hexact : ∀ t ∈ turns, ∀ r ∈ t.batch, exact_ → r.SendsExactly) {ps' : Process}
    {es : List Effect} (h : (new s).run turns = .ok (ps', es)) :
    ps'.Inv ∧ Accounts exact_ s ps' es :=
  run_keeps_from exact_ (inv_new s) (accounts_new s) hc hexact h

end

end Process

end LiteKV
