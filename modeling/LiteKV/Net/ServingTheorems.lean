/-
LiteKV.Net.ServingTheorems — what the server gives its clients, over whole runs.

A run starts without connections, with any engine, and takes any turns in
which the kernel reports what it promises (`Conforms`). The first results are
read off `run_keeps`: a session that is gone is used only while a child of
`bgsave` has its descriptor, epoll watches every session for what it has to
do, the engine and the tables have gone through one sequence of commands, and
each client's replies are those of its own requests and go out in order. The
last one is about what comes behind a run: a client that only takes gets
everything.
-/
import LiteKV.Net.EventLoopTheorems

namespace LiteKV

open Lib Lib.AssocList Lib.Run

/-! ## Results of `send` -/

theorem countP_consumed_le : ∀ (rs : List IoResult) (room : Nat),
    (consumed room rs).countP IoResult.isCount ≤ rs.countP IoResult.isCount
  | [], _ => Nat.le_refl _
  | r :: rs, room => by
      by_cases hroom : room = 0
      · rw [consumed_zero hroom]
        exact Nat.zero_le _
      · cases r with
        | count more =>
            rw [consumed_count hroom, List.countP_cons_of_pos rfl, List.countP_cons_of_pos rfl]
            exact Nat.succ_le_succ (countP_consumed_le rs _)
        | closed =>
            rw [consumed, if_neg hroom]
            exact Nat.zero_le _
        | eintr =>
            rw [consumed_eintr hroom, List.countP_cons_of_neg Bool.false_ne_true,
              List.countP_cons_of_neg Bool.false_ne_true]
            exact countP_consumed_le rs room
        | eagain =>
            rw [consumed, if_neg hroom]
            exact Nat.zero_le _

/-- Results whose counts come first are so however many of them are needed. -/
theorem LeadingCounts.consumed : ∀ {rs : List IoResult} {k : Nat} (room : Nat),
    LeadingCounts k rs → LeadingCounts k (consumed room rs)
  | [], _, _, h => h
  | r :: rs, k, room, h => by
      by_cases hroom : room = 0
      · rw [consumed_zero hroom]
        exact ⟨Nat.zero_le k, rfl⟩
      · cases r with
        | count more =>
            rw [consumed_count hroom]
            cases k with
            | zero =>
                rw [leadingCounts_zero, List.countP_cons_of_pos rfl] at h
                cases h
            | succ k =>
                rw [leadingCounts_count] at h ⊢
                exact LeadingCounts.consumed _ h
        | closed =>
            rw [LiteKV.consumed, if_neg hroom]
            exact ⟨Nat.zero_le k, rfl⟩
        | eintr =>
            rw [leadingCounts_other rfl] at h
            rw [consumed_eintr hroom, leadingCounts_other rfl]
            exact Nat.le_zero.mp (h ▸ countP_consumed_le rs room)
        | eagain =>
            rw [LiteKV.consumed, if_neg hroom]
            exact ⟨Nat.zero_le k, rfl⟩

/-- The results with which `WriteProc` writes what it claims: no result is 0, and
positive counts come first and are at most two. -/
theorem SendsExactly.of_leading {results : List IoResult} (hclosed : .closed ∉ results)
    (h : LeadingCounts 2 results) : SendsExactly results := fun len =>
  (writesExactly_iff len hclosed).mpr (h.consumed len)

/-- The results `WriteProc` meets in an entry. -/
def Ready.sends : Ready → List IoResult
  | .listen _ _ => []
  | .session _ _ io => io.sends

/-- They are such ones. -/
def Ready.SendsInFront (r : Ready) : Prop := .closed ∉ r.sends ∧ LeadingCounts 2 r.sends

instance (k : Nat) (rs : List IoResult) : Decidable (LeadingCounts k rs) :=
  inferInstanceAs (Decidable (_ ∧ _))

instance (r : Ready) : Decidable r.SendsInFront := inferInstanceAs (Decidable (_ ∧ _))

theorem Ready.SendsInFront.exactly {r : Ready} (h : r.SendsInFront) : r.SendsExactly := by
  cases r with
  | listen fired connection => exact trivial
  | session p fired io => exact .of_leading h.1 h.2

/-! ## Chunks whose cuts fit -/

/-- Chunks that fit dispatch the requests whose last bytes they bring. -/
theorem trace_readProc_fits {cmds : List Command} : ∀ (chunks : List Bytes) (n : Nat)
    {st : ReadState}, Holds st (pending cmds n).1 (pending cmds n).2 →
    chunks.flatten <+: (encodeAll cmds).drop n → n ≤ (encodeAll cmds).length →
    CutsFit cmds n chunks → (trace readProc st chunks).2 = expectedAll cmds n chunks
  | [], _, _, _, _, _, _ => rfl
  | chunk :: chunks, n, st, hst, hpre, hn, hfit => by
      obtain ⟨rest, hrest⟩ := hpre
      rw [List.flatten_cons, List.append_assoc] at hrest
      have hlen := congrArg List.length hrest
      rw [List.length_append, List.length_drop] at hlen
      have hchunk : chunk <+: (encodeAll (pending cmds n).1).drop (pending cmds n).2 :=
        ⟨chunks.flatten ++ rest, by rw [← (drop_pending cmds n hn).1, hrest]⟩
      obtain ⟨hout, hnext⟩ := (readProc_holds hst hchunk).1 hfit.1.2
      rw [← pending_add] at hout hnext
      rw [trace_cons, expectedAll, hout, expected_eq]
      refine congrArg₂ List.cons ?_ ?_
      · rw [decide_eq_false hfit.1.1]
      · refine trace_readProc_fits chunks (n + chunk.length) hnext ⟨rest, ?_⟩ (by omega) hfit.2
        rw [← List.drop_drop, ← hrest, List.drop_left]

@[simp] theorem received_zero (cmds : List Command) : received cmds 0 = [] := by
  cases cmds with
  | nil => rfl
  | cons c cs => rw [received, if_neg (by have := c.encode_pos; omega)]

/-- What the chunks are to do, taken together. -/
theorem expectedAll_requests (cmds : List Command) : ∀ (chunks : List Bytes) (n : Nat),
    (expectedAll cmds n chunks).flatMap (fun o => o.1.map CommandCache.argv)
      = ((received cmds (n + chunks.flatten.length)).drop
        (received cmds n).length).map Command.argv ∧
    (expectedAll cmds n chunks).countP (·.2) = 0
  | [], n => by simp [expectedAll]
  | chunk :: chunks, n => by
      obtain ⟨hreq, herr⟩ := expectedAll_requests cmds chunks (n + chunk.length)
      refine ⟨?_, ?_⟩
      · rw [expectedAll, List.flatMap_cons, hreq, expected, List.flatten_cons, List.length_append,
          ← Nat.add_assoc, List.map_map, received_add cmds (n + chunk.length) chunks.flatten.length,
          received_add cmds n chunk.length, List.drop_left, List.drop_left, List.append_assoc,
          List.drop_left, List.map_append]
        rfl
      · rw [expectedAll, List.countP_cons_of_neg Bool.false_ne_true, herr]

/-! ## A session that is drained -/

/-- A session has nothing to read, and takes a byte at least when it is ready
for output. -/
def Ready.TakesOnly (p : SessionPtr) : Ready → Prop
  | .listen _ _ => True
  | .session q fired io => q = p → fired &&& epollIn = 0 ∧
      (fired &&& epollOut ≠ 0 → ∃ more rest, io.sends = .count more :: rest)

/-- An entry that says that a session is ready for output. -/
def Ready.offers (p : SessionPtr) : Ready → Bool
  | .listen _ _ => false
  | .session q fired _ => decide (q = p ∧ fired &&& epollOut ≠ 0)

/-- How many entries it takes at most until a session waits for input only. -/
def SessionIo.toSend (io : SessionIo) : Nat :=
  if io.mask = epollIn then 0 else max 1 io.writeBuf.readable.length

theorem writeOut_pos (mem : Memory) {len : Nat} (hpos : 0 < len) (hlen : len < 2 ^ 31) (more : Nat)
    (rest : List IoResult) : 0 < (writeOut mem len (.count more :: rest)).total := by
  have hint : DList.toInt32 len = len := DList.toInt32_of_lt hlen
  rw [writeOut, hint, if_neg (by omega), Int.toNat_natCast, writeFromBuf, writeLoop, if_pos hpos]
  refine Nat.lt_of_lt_of_le ?_ (writeLoop_grows rest _).2
  change 0 < 0 + min (more + 1) (len - 0)
  omega

/-! ## A run without children -/

theorem Server.answer_forked {sv : Server} {name : Bytes} {env : CommandEnv} {argv : List Bytes}
    (h : env.saving = false) : (sv.answer name env argv).forked = false := by
  unfold answer
  split
  · rfl
  · rfl
  · rfl
  · rw [h, Bool.and_false]
  · rfl

/-- No `bgsave` that an entry can bring forks. -/
def Ready.ForksNot : Ready → Prop
  | .listen _ _ => True
  | .session _ _ io => ∀ i, (io.envs i).saving = false

namespace Process

section

variable {ps ps' : Process} {p : SessionPtr} {es : List Effect}

theorem handleCommand_copies {env : CommandEnv} {argv : List Bytes} (hforks : env.saving = false)
    (h : ps.handleCommand p env argv = .ok (ps', es)) : ps'.copies = ps.copies := by
  unfold handleCommand at h
  split at h
  · cases h
  · dsimp only at h
    split at h
    · cases h
    · cases h
      have hsaving : (ps.reaches env).saving = false := hforks
      rw [modifyIo]
      dsimp only
      rw [Server.answer_forked hsaving, if_neg Bool.false_ne_true]

theorem handleAll_copies {envs : Nat → CommandEnv} (hforks : ∀ i, (envs i).saving = false) :
    ∀ (cs : List CommandCache) (i : Nat) {ps ps' : Process} {es : List Effect},
      handleAll p envs i cs ps = .ok (ps', es) → ps'.copies = ps.copies
  | [], _, _, _, _, h => by
      cases h
      rfl
  | c :: cs, i, _, _, _, h => by
      rw [handleAll, bind_eq_ok] at h
      obtain ⟨⟨ps₁, es₁⟩, h₁, h⟩ := h
      obtain ⟨⟨ps₂, es₂⟩, h₂, h⟩ := bind_eq_ok.mp h
      cases h
      exact (handleAll_copies hforks cs (i + 1) h₂).trans (handleCommand_copies (hforks i) h₁)

theorem readProc_copies {io : ReadyIo} {closed : Bool} (hforks : ∀ i, (io.envs i).saving = false)
    (h : ps.readProc p io = .ok (ps', closed, es)) : ps'.copies = ps.copies := by
  unfold readProc at h
  dsimp only at h
  split at h
  · cases h
    rfl
  · obtain ⟨⟨ps₁, es₁⟩, h₁, h⟩ := bind_eq_ok.mp h
    have hall := handleAll_copies hforks _ 0 h₁
    split at h <;>
    · cases h
      exact hall

theorem writeProc_copies (ps : Process) (p : SessionPtr) (sends : List IoResult) :
    (ps.writeProc p sends).1.copies = ps.copies := by
  unfold writeProc
  dsimp only
  split
  · rfl
  · split
    · split <;> rfl
    · rfl

theorem ready_copies {r : Ready} (hforks : r.ForksNot) (h : ps.ready r = .ok (ps', es)) :
    ps'.copies = ps.copies := by
  cases r with
  | listen fired connection =>
      rw [ready, Except.ok.injEq] at h
      split at h
      · unfold acceptProc at h
        split at h
        · cases h
          rfl
        · dsimp only at h
          split at h <;>
          · cases h
            rfl
      · cases h
        rfl
  | session p fired io =>
      have ha := ready_alive h p rfl
      rw [ready, ha, Bool.not_true, if_neg Bool.false_ne_true, bind_eq_ok] at h
      obtain ⟨⟨ps₁, closed, es₁⟩, h₁, h⟩ := h
      have hread : ps₁.copies = ps.copies := by
        unfold fireRead at h₁
        split at h₁
        · exact readProc_copies hforks h₁
        · cases h₁
          rfl
      dsimp only at h
      split at h
      · cases h
        exact hread
      · split at h
        · cases h
          exact (writeProc_copies _ _ _).trans hread
        · cases h
          exact hread

/-- No child has a descriptor, whatever the effects so far. -/
def Uncopied (ps : Process) (_ : List Effect) : Prop := ∀ q, ps.copies q = 0

theorem uncopied_kept : Kept (fun _ r => r.ForksNot) Uncopied where
  ready _ hq _ hforks h q := by rw [ready_copies hforks h, hq]
  release p hq q := by
    change Function.update _ p _ q = 0
    rw [Function.update_apply, hq p, hq q, ite_self]
  timers _ _ hq := hq

end

/-! ## A run of three turns -/

/-- The address of a peer. -/
def pingAddr : Ipv4Addr := ⟨127, 0, 0, 1, 6666⟩

/-- The session of the first connection. -/
def pingSession : SessionPtr := ⟨pingAddr, 1⟩

/-- The bytes of `ping`. -/
def pingRequest : Bytes := ascii "*1\r\n$4\r\nping\r\n"

/-- The request. -/
def pingCommand : Command where
  argv := [ascii "ping"]
  nonempty := by decide
  argcFits := by decide
  argsFit := by decide

/-- Nothing is asked of the outside. -/
def pingEnv : CommandEnv where
  ctx := ⟨0, true, .lru, ⟨fun _ => 0, fun _ => [], fun _ => 0⟩, none, fun _ => []⟩
  order := []
  sends _ := []
  saving := false

/-- A peer connects. -/
def pingAccept : Turn := ⟨[], [.listen epollIn (some ⟨pingAddr, 7, true⟩)], 0, []⟩

/-- It sends `ping`. -/
def pingRead : Turn :=
  ⟨[], [.session pingSession epollIn
    ⟨fun i => pingRequest.getD i 0, [.count 13], fun _ => pingEnv, []⟩], 1, []⟩

/-- It takes three bytes of the reply. -/
def pingWrite : Turn :=
  ⟨[], [.session pingSession epollOut ⟨fun _ => 0, [], fun _ => pingEnv, [.count 2]⟩], 2, []⟩

/-- A peer connects, sends `ping`, and takes the first part of the reply. -/
def pingTurns : List Turn := [pingAccept, pingRead, pingWrite]

/-- A turn for the session alone is reported rightly while epoll watches it. -/
theorem reported_ping {turns : List Turn} {mask : UInt32}
    (hmask : (traceE turn (new .new) turns).toOption.map (fun r => r.1.epoll pingSession)
      = some (some mask))
    {ps : Process} {out : List (List Effect)} (h : traceE turn (new .new) turns = .ok (ps, out))
    (fired : UInt32) (io : ReadyIo) (now : Nat) :
    ps.Conforms [⟨[], [.session pingSession fired io], now, []⟩] := by
  rw [h] at hmask
  have hwatched : ps.epoll pingSession = some mask := Option.some.inj hmask
  refine ⟨⟨List.nodup_singleton _, fun p hp => ?_, trivial, fun _ _ _ => trivial⟩,
    fun _ _ _ => trivial⟩
  rw [List.mem_singleton.mp hp]
  change (ps.epoll pingSession).isSome = true
  rw [hwatched]
  rfl

theorem pingTurns_conforms : (new .new).Conforms pingTurns := by
  have haccept : (new .new).Conforms [pingAccept] :=
    ⟨⟨List.nodup_nil, (fun _ hp => absurd hp List.not_mem_nil),
      ⟨rfl, fun _ hp => absurd hp Bool.false_ne_true⟩, fun _ _ _ => trivial⟩, fun _ _ _ => trivial⟩
  have hread : (new .new).Conforms [pingAccept, pingRead] :=
    haccept.append _ fun ps out h =>
      reported_ping (by decide +kernel : _ = some (some epollIn)) h _ _ _
  exact hread.append _ fun ps out h =>
    reported_ping (by decide +kernel : _ = some (some (epollIn ||| epollOut))) h _ _ _

/-- What the run comes to: the session has its request and three bytes. -/
theorem pingTurns_ok : ∃ ps es, (new .new).run pingTurns = .ok (ps, es) ∧
    ps.alive pingSession = true ∧ (ps.io pingSession).writeBuf.readable.length = 4 ∧
    chunksOf pingSession es = [pingRequest] := by
  have hend : ((new .new).run pingTurns).toOption.map (fun r => (r.1.alive pingSession,
      (r.1.io pingSession).writeBuf.readable.length, chunksOf pingSession r.2))
        = some (true, 4, [pingRequest]) := by decide +kernel
  cases h : (new .new).run pingTurns with
  | error e =>
      rw [h] at hend
      cases hend
  | ok r =>
      rw [h] at hend
      obtain ⟨halive, hrest⟩ := Prod.mk.inj (Option.some.inj hend)
      obtain ⟨hlen, hchunks⟩ := Prod.mk.inj hrest
      exact ⟨r.1, r.2, rfl, halive, hlen, hchunks⟩

theorem pingTurns_forksNot : ∀ t ∈ pingTurns, ∀ r ∈ t.batch, r.ForksNot := by
  intro t ht r hr
  simp only [pingTurns, List.mem_cons, List.not_mem_nil, or_false] at ht
  rcases ht with rfl | rfl | rfl
  · rw [List.mem_singleton.mp hr]
    exact trivial
  · rw [List.mem_singleton.mp hr]
    exact fun _ => rfl
  · rw [List.mem_singleton.mp hr]
    exact fun _ => rfl

theorem pingTurns_sends : ∀ t ∈ pingTurns, ∀ r ∈ t.batch, r.SendsInFront := by
  decide

section

variable {s : Engine} {turns : List Turn} {ps : Process} {es : List Effect}

/-- A run that is not told how exactly bytes go out. -/
theorem run_accounts (hc : (new s).Conforms turns) (h : (new s).run turns = .ok (ps, es)) :
    ps.Inv ∧ Accounts False s ps es :=
  run_keeps False hc (fun _ _ _ _ hf => hf.elim) h

/-! ## Sessions and epoll -/

/-- A session that is gone and is used all the same: its entry is one of a turn, and
when `epoll_wait` returned, the server had closed its descriptor, and a child of
`bgsave` had it still. -/
theorem run_dead (hc : (new s).Conforms turns) {p : SessionPtr}
    (h : (new s).run turns = .error (.dead p)) : ∃ pre t post ps es, turns = pre ++ t :: post ∧
      (new s).run pre = .ok (ps, es) ∧ p ∈ t.batch.filterMap Ready.session? ∧
      (ps.polled t).peer p ≠ some p ∧ 0 < (ps.polled t).copies p := by
  rw [run, bind_eq_error] at h
  rcases h with h | ⟨_, _, h⟩
  · obtain ⟨pre, t, post, ps, os, rfl, hpre, hturn⟩ := traceE_eq_error turns h
    have hrun : (new s).run pre = .ok (ps, os.flatten) := by rw [run, hpre, ok_bind]; rfl
    have ht : ps.Reported t := (GuardedE.drop pre hc hpre).1
    have hi := polled_inv (run_accounts (GuardedE.take pre hc) hrun).1 t
    rw [turn, bind_eq_error] at hturn
    rcases hturn with hbatch | ⟨_, _, hturn⟩
    · obtain ⟨hmem, hdead⟩ := batch_dead t.batch hi ht.once ht.peers hbatch
      obtain ⟨hclosed, hcopied⟩ := (hi.left p hdead).mp (ht.watched p hmem)
      exact ⟨pre, t, post, ps, os.flatten, rfl, hrun, hmem, hclosed, hcopied⟩
    · cases hturn
  · cases h

/-- **The loop follows the pointer of a session that is gone in one case only**: the
server had closed its descriptor and a child of `bgsave` had it still, so epoll
reported it once more. Neither `ReadProc` nor `WriteProc` closes the session of
a later entry of the same turn; and while no `bgsave` has forked, no pointer in
epoll leads nowhere. -/
theorem run_sessions_live (hc : (new s).Conforms turns) (p : SessionPtr) :
    ((new s).run turns = .error (.dead p) → ∃ pre t post ps es, turns = pre ++ t :: post ∧
      (new s).run pre = .ok (ps, es) ∧ p ∈ t.batch.filterMap Ready.session? ∧
      (ps.polled t).peer p ≠ some p ∧ 0 < (ps.polled t).copies p) ∧
    ((∀ t ∈ turns, ∀ r ∈ t.batch, r.ForksNot) → (new s).run turns ≠ .error (.dead p)) := by
  refine ⟨run_dead hc, fun hforks h => ?_⟩
  obtain ⟨pre, t, post, ps, es, rfl, hrun, -, -, hcopied⟩ := run_dead hc h
  have hnew : (new s).Uncopied [] := fun _ => rfl
  have hnone : ps.Uncopied es := (uncopied_kept.run (inv_new s) hnew (GuardedE.take pre hc)
    (meets_of_forall fun t ht => hforks t (List.mem_append_left _ ht)) hrun).2
  have hpolled : (ps.polled t).Uncopied es := uncopied_kept.polled hnone t
  rw [hpolled p] at hcopied
  exact Nat.lt_irrefl 0 hcopied

/-- The session sends `bgsave`, and a child is forked. -/
def pingSave : Turn :=
  ⟨[], [.session pingSession epollIn ⟨fun i => (ascii "*1\r\n$6\r\nbgsave\r\n").getD i 0,
    [.count 15], fun _ => { pingEnv with saving := true }, []⟩], 1, []⟩

/-- The peer closes the connection. -/
def pingClose : Turn :=
  ⟨[], [.session pingSession epollIn ⟨fun _ => 0, [.closed], fun _ => pingEnv, []⟩], 2, []⟩

/-- A turn later the child has not got to its sockets yet. -/
def pingStale : List Turn := [pingAccept, pingSave, pingClose, pingClose]

theorem pingStale_conforms : (new .new).Conforms pingStale := by
  have haccept : (new .new).Conforms [pingAccept] := GuardedE.take [pingAccept] pingTurns_conforms
  have hsave : (new .new).Conforms [pingAccept, pingSave] := haccept.append _ fun _ _ h =>
    reported_ping (by decide +kernel : _ = some (some epollIn)) h _ _ _
  have hclose : (new .new).Conforms [pingAccept, pingSave, pingClose] := hsave.append _ fun _ _ h =>
    reported_ping (by decide +kernel : _ = some (some (epollIn ||| epollOut))) h _ _ _
  exact hclose.append _ fun _ _ h =>
    reported_ping (by decide +kernel : _ = some (some (epollIn ||| epollOut))) h _ _ _

/-- The session was read from when it was gone. -/
theorem run_sessions_live_stale : (new .new).run pingStale = .error (.dead pingSession) ∧
    (∃ pre t post ps es, pingStale = pre ++ t :: post ∧ (new .new).run pre = .ok (ps, es) ∧
      0 < (ps.polled t).copies pingSession) ∧
    (new .new).run pingTurns ≠ .error (.dead pingSession) := by
  have hdead : (new .new).run pingStale = .error (.dead pingSession) := by
    have hend : (match (new .new).run pingStale with
        | .error e => some e
        | .ok _ => none) = some (.dead pingSession) := by decide +kernel
    cases h : (new .new).run pingStale with
    | error e =>
        rw [h] at hend
        rw [Option.some.inj hend]
    | ok r =>
        rw [h] at hend
        cases hend
  obtain ⟨pre, t, post, ps, es, heq, hpre, -, -, hcopied⟩ :=
    (run_sessions_live pingStale_conforms pingSession).1 hdead
  exact ⟨hdead, ⟨pre, t, post, ps, es, heq, hpre, hcopied⟩,
    (run_sessions_live pingTurns_conforms pingSession).2 pingTurns_forksNot⟩

/-- **No wake-up is lost**: epoll watches the sessions that are open, and the closed
ones of which a child of `bgsave` still has the descriptor, and nothing else.
It watches an open one for what its mask says; that is always input, and output
whenever the session has bytes to write. -/
theorem run_watches (hc : (new s).Conforms turns) (h : (new s).run turns = .ok (ps, es))
    (p : SessionPtr) :
    ((ps.epoll p).isSome ↔ ps.alive p = true ∨ (ps.peer p ≠ some p ∧ 0 < ps.copies p)) ∧
    (ps.alive p = true → ps.epoll p = some (ps.io p).mask ∧
      ((ps.io p).mask = epollIn ∨ (ps.io p).mask = epollIn ||| epollOut) ∧
      ((ps.io p).writeBuf.readable ≠ [] → (ps.io p).mask = epollIn ||| epollOut)) := by
  have hi := (run_accounts hc h).1
  refine ⟨?_, fun ha => ?_⟩
  · cases ha : ps.alive p with
    | true =>
        rw [(hi.isOpen p ha).registered]
        exact ⟨fun _ => .inl rfl, fun _ => rfl⟩
    | false =>
        rw [hi.left p ha]
        exact ⟨.inr, fun h => h.resolve_left Bool.false_ne_true⟩
  · obtain ⟨-, hreg, hmask, hpending⟩ := hi.isOpen p ha
    exact ⟨hreg, hmask, hpending⟩

theorem run_watches_ping : ∃ ps es, (new .new).run pingTurns = .ok (ps, es) ∧
    ((ps.epoll pingSession).isSome ↔ ps.alive pingSession = true ∨
      (ps.peer pingSession ≠ some pingSession ∧ 0 < ps.copies pingSession)) := by
  obtain ⟨ps, es, h, -⟩ := pingTurns_ok
  exact ⟨ps, es, h, (run_watches pingTurns_conforms h pingSession).1⟩

/-! ## One sequence of commands -/

/-- **The connections are served as by one client**: the store has gone through
the commands of all of them and the timers, one after the other, each reply is
the one the engine gives at its place, and the tables of the server are those
of a run of accepts, subscriptions and closes. -/
theorem run_serializes (hc : (new s).Conforms turns) (h : (new s).run turns = .ok (ps, es)) :
    ps.engine = s.run (history es) ∧
    (∀ pre p ctx argv reply post, es = pre ++ .command p ctx argv reply :: post →
      ((s.run (history pre)).handleCommand ctx argv).2 = .ok reply) ∧
    ∃ events, ps.server = Server.new.run events := by
  have hacc := (run_accounts hc h).2
  refine ⟨hacc.engine.trans (Engine.foldl_after es s), ?_, hacc.reached⟩
  intro pre p ctx argv reply post hes
  rw [← Engine.foldl_after]
  exact (guarded_iff_forall es s).mp hacc.answered pre (.command p ctx argv reply) post hes

theorem run_serializes_ping : ∃ ps es, (new .new).run pingTurns = .ok (ps, es) ∧
    ps.engine = Engine.new.run (history es) := by
  obtain ⟨ps, es, h, -⟩ := pingTurns_ok
  exact ⟨ps, es, h, (run_serializes pingTurns_conforms h).1⟩

/-! ## Requests and replies of one client -/

/-- **Clients do not disturb each other's requests**: whatever the others send,
the requests of a session are those its own chunks give when `ReadProc` gets
them one after the other, and each of them, and each error, has one reply. -/
theorem run_requests (hc : (new s).Conforms turns) (h : (new s).run turns = .ok (ps, es))
    (p : SessionPtr) :
    let parsed := (trace LiteKV.readProc .new (chunksOf p es)).2
    requestsOf p es = parsed.flatMap (fun o => o.1.map CommandCache.argv) ∧
    (repliesTo p es).length = (requestsOf p es).length + parsed.countP (·.2) := by
  obtain ⟨st, hst, -⟩ := (run_accounts hc h).2.parses p
  exact ⟨hst.requests, hst.replies⟩

theorem run_requests_ping : ∃ ps es, (new .new).run pingTurns = .ok (ps, es) ∧
    (repliesTo pingSession es).length = (requestsOf pingSession es).length +
      (trace LiteKV.readProc .new (chunksOf pingSession es)).2.countP (·.2) := by
  obtain ⟨ps, es, h, -⟩ := pingTurns_ok
  exact ⟨ps, es, h, (run_requests pingTurns_conforms h pingSession).2⟩

/-- **A client that pipelines is answered request by request**: when a peer's
bytes are a beginning of the encodings of some requests, and their cuts fit,
the requests it has sent whole are handled, in order and each once, and each
has one reply, whatever the other clients do. -/
theorem run_pipelined (hc : (new s).Conforms turns) (h : (new s).run turns = .ok (ps, es))
    (p : SessionPtr) {cmds : List Command}
    (hpeer : (chunksOf p es).flatten <+: encodeAll cmds) (hfit : CutsFit cmds 0 (chunksOf p es)) :
    requestsOf p es = (received cmds (chunksOf p es).flatten.length).map Command.argv ∧
    (repliesTo p es).length = (received cmds (chunksOf p es).flatten.length).length := by
  obtain ⟨st, hst, -⟩ := (run_accounts hc h).2.parses p
  have hout := trace_readProc_fits (chunksOf p es) 0 (holds_new cmds) hpeer (Nat.zero_le _) hfit
  obtain ⟨hreq, herr⟩ := expectedAll_requests cmds (chunksOf p es) 0
  have hargv : requestsOf p es
      = (received cmds (chunksOf p es).flatten.length).map Command.argv := by
    rw [hst.requests, hout, hreq, received_zero, List.length_nil, List.drop_zero, Nat.zero_add]
  refine ⟨hargv, ?_⟩
  rw [hst.replies, hout, herr, hargv, List.length_map, Nat.add_zero]

theorem run_pipelined_ping : ∃ ps es, (new .new).run pingTurns = .ok (ps, es) ∧
    requestsOf pingSession es = (received [pingCommand] 14).map Command.argv := by
  obtain ⟨ps, es, h, -, -, hchunks⟩ := pingTurns_ok
  have hpeer : (chunksOf pingSession es).flatten <+: encodeAll [pingCommand] := by
    rw [hchunks]
    exact ⟨[], by decide⟩
  have hfit : CutsFit [pingCommand] 0 (chunksOf pingSession es) := by
    rw [hchunks]
    refine ⟨⟨by decide, fun c hc hend => ?_⟩, trivial⟩
    exact absurd hend (not_argEnd_of_le c (Nat.zero_le _))
  have hall := (run_pipelined pingTurns_conforms h pingSession hpeer hfit).1
  rw [hchunks] at hall
  exact ⟨ps, es, h, hall⟩

/-- **Replies go out whole and in order**: without the messages of PUBLISH, what was
written to the socket of a session is the beginning of its replies, one behind
the other, and what is missing is in the write buffer while the session is
open. A socket that PUBLISH has written nothing to has nothing else on it. -/
theorem run_replies (hc : (new s).Conforms turns)
    (hsends : ∀ t ∈ turns, ∀ r ∈ t.batch, r.SendsInFront)
    (h : (new s).run turns = .ok (ps, es)) (p : SessionPtr) :
    (sentTo p es).flatMap Wire.replies <+: (repliesTo p es).flatten ∧
    (ps.alive p = true → (repliesTo p es).flatten
      = (sentTo p es).flatMap Wire.replies ++ (ps.io p).writeBuf.readable) ∧
    ((∀ bytes, Wire.message bytes ∉ sentTo p es) →
      (sentTo p es).flatMap Wire.bytes <+: (repliesTo p es).flatten) := by
  have hexact : ∀ t ∈ turns, ∀ r ∈ t.batch, True → r.SendsExactly := fun t ht r hr _ =>
    (hsends t ht r hr).exactly
  obtain ⟨hfront, hpending⟩ := (run_keeps True hc hexact h).2.flow trivial p
  rw [← sentTo_replies] at hfront hpending
  refine ⟨hfront, hpending, fun hmessages => ?_⟩
  rw [sentTo_bytes hmessages]
  exact hfront

theorem run_replies_ping : ∃ ps es, (new .new).run pingTurns = .ok (ps, es) ∧
    (sentTo pingSession es).flatMap Wire.replies <+: (repliesTo pingSession es).flatten := by
  obtain ⟨ps, es, h, -⟩ := pingTurns_ok
  exact ⟨ps, es, h, (run_replies pingTurns_conforms pingTurns_sends h pingSession).1⟩

end

/-! ## A client that only takes -/

/-- `WriteProc` for a session whose peer takes a byte. -/
theorem writeProc_toSend {ps : Process} {p : SessionPtr} (ho : ps.Open p)
    (hlen : (ps.io p).writeBuf.readable.length < 2 ^ 31) (more : Nat) (rest : List IoResult) :
    let ps' := (ps.writeProc p (.count more :: rest)).1
    ps'.server = ps.server ∧
    (ps'.io p).writeBuf.readable.length ≤ (ps.io p).writeBuf.readable.length ∧
    (ps'.io p).toSend ≤ (ps.io p).toSend - 1 := by
  have hread := (ps.io p).writeBuf.length_readable
  have hgone : ∀ io : SessionIo, io.setRead.toSend = 0 := fun io => if_pos rfl
  unfold writeProc
  dsimp only
  split
  · have hio : (ps.setRead p).io p = (ps.io p).setRead := modifyIo_io _ _ _
    refine ⟨rfl, ?_, ?_⟩
    · rw [hio]
      exact Nat.le_refl _
    · rw [hio, hgone]
      exact Nat.zero_le _
  · rename_i hpos
    have hsize : (ps.io p).writeBuf.readableBytes = (ps.io p).writeBuf.readable.length := hread.symm
    have hle := writeOut_total_le (ps.io p).writeBuf.memory (ps.io p).writeBuf.readableBytes
      (.count more :: rest)
    have htotal := writeOut_pos (ps.io p).writeBuf.memory (Nat.lt_of_not_le hpos)
      (by rw [hsize]; exact hlen) more rest
    generalize writeOut (ps.io p).writeBuf.memory (ps.io p).writeBuf.readableBytes
      (.count more :: rest) = w at hle htotal
    rw [if_pos htotal]
    split
    · have hio :
          ((ps.setRead p).modifyIo p fun io => { io with writeBuf := io.writeBuf.reset }).io p
            = { (ps.io p).setRead with writeBuf := (ps.io p).writeBuf.reset } := by
        rw [modifyIo_io]
        exact congrArg (fun io : SessionIo => { io with writeBuf := io.writeBuf.reset })
          (modifyIo_io ps p .setRead)
      refine ⟨rfl, ?_, ?_⟩
      · rw [hio]
        change (ps.io p).writeBuf.reset.readable.length ≤ _
        rw [Buffer.readable_reset]
        exact Nat.zero_le _
      · rw [hio]
        exact Nat.le_trans (Nat.le_of_eq (if_pos rfl)) (Nat.zero_le _)
    · rename_i hpart
      have hmask : (ps.io p).mask ≠ epollIn := by
        rw [ho.pending fun h => by rw [h] at hsize; exact hpos (Nat.le_of_eq hsize)]
        decide
      refine ⟨rfl, ?_, ?_⟩
      · rw [modifyIo_io, Buffer.readable_forward, List.length_drop]
        omega
      · rw [modifyIo_io, SessionIo.toSend, SessionIo.toSend, if_neg hmask, if_neg hmask,
          Buffer.readable_forward, List.length_drop]
        omega

/-- What an entry does to the bytes a taking session waits for. -/
theorem ready_toSend {ps ps' : Process} {p : SessionPtr} {r : Ready} {es' : List Effect}
    (hi : ps.Inv) (hp : ps.alive p = true) (hlen : (ps.io p).writeBuf.readable.length < 2 ^ 31)
    (hnew : ps.NewPeer r) (htakes : r.TakesOnly p) (h : ps.ready r = .ok (ps', es')) :
    ps'.alive p = true ∧ (ps'.io p).writeBuf.readable.length < 2 ^ 31 ∧
      (ps'.io p).toSend ≤ (ps.io p).toSend - (if r.offers p then 1 else 0) := by
  have hsame : ∀ ps' : Process, ps'.alive p = true → ps'.io p = ps.io p → r.offers p = false →
      ps'.alive p = true ∧ (ps'.io p).writeBuf.readable.length < 2 ^ 31 ∧
        (ps'.io p).toSend ≤ (ps.io p).toSend - (if r.offers p then 1 else 0) := by
    intro ps' ha' hio hoff
    rw [hio, hoff]
    exact ⟨ha', hlen, Nat.le_refl _⟩
  have ha := ready_alive h
  cases r with
  | listen fired connection =>
      have hne : ∀ {q fd}, Accepts ps q fd ps' → p ≠ q := fun hcase hpq => by
        have hold := hi.old hp
        rw [hpq, hcase.number] at hold
        exact Nat.lt_irrefl _ hold
      rcases ready_cases hi hnew h with
        ⟨-, rfl⟩ | ⟨q, fd, -, hcase⟩ | ⟨q, fd, -, hcase⟩ | ⟨q, hq, -⟩
      · exact hsame ps' hp rfl rfl
      · exact hsame ps' ((hcase.alive p).trans hp)
          ((hcase.io p).trans (if_neg (hne hcase.toAccepts))) rfl
      · exact hsame ps' ((hcase.alive p).mpr (.inr hp))
          ((hcase.io p).trans (if_neg (hne hcase.toAccepts))) rfl
      · cases hq
  | session q fired io =>
      have hq : ps.alive q = true := ha q rfl
      by_cases hqp : q = p
      · subst hqp
        have ho := hi.isOpen q hp
        obtain ⟨hin, hout⟩ := htakes rfl
        have hfire : ps.fireRead q fired io = .ok (ps, false, []) := by
          rw [fireRead, UInt32.and_assoc, hin, UInt32.and_zero, if_neg fun h => h rfl]
        rw [ready, hp, Bool.not_true, if_neg Bool.false_ne_true, hfire, ok_bind,
          if_neg Bool.false_ne_true] at h
        have hmask : (ps.io q).mask &&& fired &&& epollOut
            = fired &&& ((ps.io q).mask &&& epollOut) := by
          rw [UInt32.and_comm (ps.io q).mask fired, UInt32.and_assoc]
        dsimp only at h
        split at h
        · rename_i hfired
          cases h
          have hoff : fired &&& epollOut ≠ 0 := fun hz => hfired <| by
            rw [UInt32.and_assoc, hz, UInt32.and_zero]
          obtain ⟨more, rest, hsends⟩ := hout hoff
          obtain ⟨hserver, hread, htoSend⟩ := writeProc_toSend ho hlen more rest
          rw [hsends]
          refine ⟨?_, Nat.lt_of_le_of_lt hread hlen, ?_⟩
          · rw [alive, hserver]
            exact hp
          · rw [Ready.offers, if_pos (decide_eq_true ⟨rfl, hoff⟩)]
            exact htoSend
        · rename_i hfired
          cases h
          refine ⟨hp, hlen, ?_⟩
          -- an entry that is not served is one the mask does not ask for
          rcases ho.mask with hm | hm
          · rw [SessionIo.toSend, if_pos hm]
            exact Nat.zero_le _
          · have hoff : fired &&& epollOut = 0 := by
              rw [hmask, hm] at hfired
              exact not_not.mp hfired
            rw [Ready.offers, if_neg (by simp [hoff])]
            exact Nat.le_refl _
      · have hoff : Ready.offers p (.session q fired io) = false := decide_eq_false fun h => hqp h.1
        have hne : p.name ≠ q.name := fun hn => hqp (alive_unique hq hp hn).symm
        rcases session_cases hi.wellFormed (hi.isOpen q hq) hq h with hl | hs
        · exact hsame ps' ((hl.alive p).mpr ⟨hne, hp⟩) (hl.io p (Ne.symm hqp)) hoff
        · exact hsame ps' ((hs.alive p).trans hp) (hs.io p (Ne.symm hqp)) hoff

/-- The entries of a turn. -/
theorem batch_toSend {ps : Process} {p : SessionPtr} {batch : List Ready} (hi : ps.Inv)
    (hpeers : GuardedE ready NewPeer ps batch) (htakes : ∀ r ∈ batch, r.TakesOnly p)
    (hp : ps.alive p = true) (hlen : (ps.io p).writeBuf.readable.length < 2 ^ 31) {ps' : Process}
    {out : List (List Effect)} (h : traceE ready ps batch = .ok (ps', out)) :
    ps'.Inv ∧ ps'.alive p = true ∧ (ps'.io p).writeBuf.readable.length < 2 ^ 31 ∧
      (ps'.io p).toSend ≤ (ps.io p).toSend - batch.countP (Ready.offers p) := by
  induction batch generalizing ps out with
  | nil =>
      cases h
      exact ⟨hi, hp, hlen, Nat.le_refl _⟩
  | cons r batch ih =>
      obtain ⟨ps₁, es₁, out₁, h₁, hrest, rfl⟩ := traceE_cons_eq_ok.mp h
      obtain ⟨hp₁, hlen₁, hto₁⟩ :=
        ready_toSend hi hp hlen hpeers.1 (htakes r List.mem_cons_self) h₁
      obtain ⟨hi₂, hp₂, hlen₂, hto₂⟩ := ih (ready_inv hi hpeers.1 h₁).1 (hpeers.2 ps₁ es₁ h₁)
        (fun r hr => htakes r (List.mem_cons_of_mem _ hr)) hp₁ hlen₁ hrest
      refine ⟨hi₂, hp₂, hlen₂, ?_⟩
      rw [List.countP_cons]
      omega

/-- Some turns. -/
theorem turns_toSend {ps : Process} {p : SessionPtr} {turns : List Turn} (hi : ps.Inv)
    (hc : ps.Conforms turns) (hp : ps.alive p = true)
    (hlen : (ps.io p).writeBuf.readable.length < 2 ^ 31)
    (htakes : ∀ t ∈ turns, ∀ r ∈ t.batch, r.TakesOnly p) {ps' : Process}
    {out : List (List Effect)} (h : traceE turn ps turns = .ok (ps', out)) :
    ps'.alive p = true ∧
      (ps'.io p).toSend ≤ (ps.io p).toSend - (turns.flatMap Turn.batch).countP
        (Ready.offers p) := by
  induction turns generalizing ps out with
  | nil =>
      cases h
      exact ⟨hp, Nat.le_refl _⟩
  | cons t turns ih =>
      obtain ⟨ps₁, es₁, out₁, h₁, hrest, rfl⟩ := traceE_cons_eq_ok.mp h
      obtain ⟨⟨ps₂, out₂⟩, hbatch, h₁'⟩ := bind_eq_ok.mp h₁
      cases h₁'
      have hio := congrFun (polled_io ps t) p
      obtain ⟨hi₂, hp₂, hlen₂, hto₂⟩ := batch_toSend (polled_inv hi t) hc.1.peers
        (htakes t List.mem_cons_self) ((polled_alive ps t p).trans hp)
          (by rw [hio]; exact hlen) hbatch
      obtain ⟨hp', hto'⟩ := ih (timers_inv hi₂ t.now t.stale) (hc.2 _ _ h₁) hp₂ hlen₂
        (fun t ht => htakes t (List.mem_cons_of_mem _ ht)) hrest
      refine ⟨hp', ?_⟩
      rw [hio] at hto₂
      rw [List.flatMap_cons, List.countP_append]
      exact Nat.le_trans hto' (by dsimp only; omega)

/-- **A client that takes its replies gets all of them**: behind any run, a
session that sends nothing more and takes at least a byte whenever it is ready
has been sent every reply, with the messages of PUBLISH in between, once it was
ready as often as it has bytes to get; it is still open then, and epoll watches
it for input only. -/
theorem run_drains {s : Engine} {turns more : List Turn} {ps ps' : Process}
    {es es' : List Effect} {p : SessionPtr} (hc : (new s).Conforms (turns ++ more))
    (hsends : ∀ t ∈ turns ++ more, ∀ r ∈ t.batch, r.SendsInFront)
    (h : (new s).run turns = .ok (ps, es)) (ha : ps.alive p = true)
    (hlen : (ps.io p).writeBuf.readable.length < 2 ^ 31)
    (htakes : ∀ t ∈ more, ∀ r ∈ t.batch, r.TakesOnly p)
    (hoffers : max 1 (ps.io p).writeBuf.readable.length
      ≤ (more.flatMap Turn.batch).countP (Ready.offers p))
    (h' : ps.run more = .ok (ps', es')) :
    ps'.alive p = true ∧ ps'.epoll p = some epollIn ∧
      (sentTo p (es ++ es')).flatMap Wire.replies = (repliesTo p (es ++ es')).flatten := by
  obtain ⟨⟨ps₁, out⟩, hturns, hret⟩ := bind_eq_ok.mp h
  cases hret
  obtain ⟨⟨ps₂, out'⟩, hmore, hret⟩ := bind_eq_ok.mp h'
  cases hret
  dsimp only at ha hlen hoffers
  have hexact : ∀ t ∈ turns ++ more, ∀ r ∈ t.batch, True → r.SendsExactly := fun t ht r hr _ =>
    (hsends t ht r hr).exactly
  have hcmore : ps₁.Conforms more := GuardedE.drop turns hc hturns
  have hcturns : (new s).Conforms turns := GuardedE.take turns hc
  obtain ⟨hi, hacc⟩ := run_accounts hcturns h
  obtain ⟨-, hexacc⟩ := run_keeps True hcturns
    (fun t ht => hexact t (List.mem_append_left _ ht)) h
  obtain ⟨hi', hacc'⟩ := run_keeps_from True hi hexacc hcmore
    (fun t ht => hexact t (List.mem_append_right _ ht)) h'
  obtain ⟨hp', hto⟩ := turns_toSend hi hcmore ha hlen htakes hmore
  dsimp only at hto
  have hmax : (ps₁.io p).toSend ≤ max 1 (ps₁.io p).writeBuf.readable.length := by
    unfold SessionIo.toSend
    split
    · exact Nat.zero_le _
    · exact Nat.le_refl _
  have hzero : (ps₂.io p).toSend = 0 := by omega
  have hmask : (ps₂.io p).mask = epollIn := by
    unfold SessionIo.toSend at hzero
    split at hzero
    · assumption
    · omega
  have ho := hi'.isOpen p hp'
  have hnil : (ps₂.io p).writeBuf.readable = [] := by
    by_contra hne
    have := ho.pending hne
    rw [hmask] at this
    exact absurd this (by decide)
  refine ⟨hp', hmask ▸ ho.registered, ?_⟩
  rw [sentTo_replies, (hacc'.flow trivial p).2 hp', hnil, List.append_nil]

/-- The peer takes one byte more. -/
def pingByte : Turn :=
  ⟨[], [.session pingSession epollOut ⟨fun _ => 0, [], fun _ => pingEnv, [.count 0]⟩], 3, []⟩

/-- The other four bytes of the reply. -/
def pingRest : List Turn := [pingByte, pingByte, pingByte, pingByte]

theorem pingRest_conforms : (new .new).Conforms (pingTurns ++ pingRest) := by
  have h₁ : (new .new).Conforms (pingTurns ++ [pingByte]) :=
    pingTurns_conforms.append _ fun _ _ h =>
    reported_ping (by decide +kernel : _ = some (some (epollIn ||| epollOut))) h _ _ _
  have h₂ : (new .new).Conforms (pingTurns ++ [pingByte, pingByte]) := h₁.append _ fun _ _ h =>
    reported_ping (by decide +kernel : _ = some (some (epollIn ||| epollOut))) h _ _ _
  have h₃ : (new .new).Conforms (pingTurns ++ [pingByte, pingByte, pingByte]) :=
    h₂.append _ fun _ _ h =>
      reported_ping (by decide +kernel : _ = some (some (epollIn ||| epollOut))) h _ _ _
  exact h₃.append _ fun _ _ h =>
    reported_ping (by decide +kernel : _ = some (some (epollIn ||| epollOut))) h _ _ _

theorem run_drains_ping : ∃ ps es ps' es', (new .new).run pingTurns = .ok (ps, es) ∧
    ps.run pingRest = .ok (ps', es') ∧
    (sentTo pingSession (es ++ es')).flatMap Wire.replies
      = (repliesTo pingSession (es ++ es')).flatten := by
  obtain ⟨ps, es, h, halive, hlen, -⟩ := pingTurns_ok
  have hok : (((new .new).run pingTurns).bind fun r => r.1.run pingRest).isOk = true := by
    decide +kernel
  rw [h] at hok
  change (ps.run pingRest).isOk = true at hok
  have htakes : ∀ t ∈ pingRest, ∀ r ∈ t.batch, r.TakesOnly pingSession := by
    intro t ht r hr
    have ht' : t ∈ List.replicate 4 pingByte := ht
    rw [List.eq_of_mem_replicate ht'] at hr
    rw [List.mem_singleton.mp hr]
    exact fun _ => ⟨by decide, fun _ => ⟨0, [], rfl⟩⟩
  cases h' : ps.run pingRest with
  | error e =>
      rw [h'] at hok
      cases hok
  | ok r =>
      exact ⟨ps, es, r.1, r.2, h, h', (run_drains pingRest_conforms (by decide) h halive
        (by rw [hlen]; decide) htakes (by rw [hlen]; decide) h').2.2⟩

end Process

end LiteKV
