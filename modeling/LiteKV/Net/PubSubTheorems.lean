/-
LiteKV.Net.PubSubTheorems — the event loop gives the pub/sub service.

`Broadcasts.feeds` is about the service alone: what a session has been written
is, message by message, what it has subscribed to. `Tracks` ties the tables of
the server to the subscriptions the effects tell; a request keeps it
(`handleCommand_tracks`), and so does every entry of a turn, so every run
broadcasts.

An open session is in the list of a channel once for each time it has
subscribed. A session that `WriteProc` has closed can be in it, too. Its
descriptor leads nowhere, and PUBLISH writes nothing to it, until a new
connection gets the number; that one is then written messages it has not asked
for (`stranger_written`). The runs here are those without such a connection
(`Unlisted`).
-/
import LiteKV.Net.PubSub
import LiteKV.Net.ServingTheorems
import Mathlib.Data.List.Induction
import Mathlib.Data.List.Forall2

namespace LiteKV

open Lib Lib.AssocList Lib.Run

/-! ## Reading the effects -/

section

variable {p q : SessionPtr} {es es' : List Effect} {e : Effect}

theorem subscriptions_append :
    subscriptions q (es ++ es') = es'.foldl (Effect.subscriptions q) (subscriptions q es) :=
  List.foldl_append

/-- An effect that is not about a session changes nothing for it. -/
theorem Effect.same_of_session (h : e.session ≠ some q) (subs : Bytes → Nat) :
    e.subscriptions q subs = subs := by
  cases e <;> simp_all [Effect.session, Effect.subscriptions]

theorem Quiet.foldl_same (h : Quiet q es) (subs : Bytes → Nat) :
    es.foldl (Effect.subscriptions q) subs = subs := by
  induction es with
  | nil => rfl
  | cons e es ih =>
      rw [List.foldl_cons, Effect.same_of_session (h e List.mem_cons_self) subs]
      exact ih fun e he => h e (List.mem_cons_of_mem _ he)

theorem Quiet.subscriptions_append (h : Quiet q es') :
    subscriptions q (es ++ es') = subscriptions q es := by
  rw [LiteKV.subscriptions_append, h.foldl_same]

theorem relays_quiet (block : List (SessionPtr × Bytes)) (q : SessionPtr) :
    Quiet q (relays block) := by
  intro e he
  obtain ⟨w, -, rfl⟩ := List.mem_map.mp he
  exact (Option.some_ne_none q).symm

end

/-! ## The service -/

theorem range_bytesMemory (bytes : Bytes) {n : Nat} (hn : n ≤ bytes.length) :
    (List.range n).map (fun (i : Nat) => bytesMemory bytes i) = bytes.take n := by
  refine List.ext_getElem (by simp [hn]) fun i hi _ => ?_
  rw [List.length_map, List.length_range] at hi
  rw [List.getElem_map, List.getElem_range, List.getElem_take, bytesMemory,
    if_pos (Int.natCast_nonneg i), Int.toNat_natCast, List.getD_eq_getElem?_getD,
    List.getElem?_eq_getElem (by omega), Option.getD_some]

theorem arg_lowered_succ (argv : List Bytes) (i : Nat) :
    arg (lowered argv) (i + 1) = arg argv (i + 1) := by
  cases argv <;> rfl

namespace Server

/-- A message that is written to a session with such results is written up to
where the socket took it. -/
theorem relay_sent {env : CommandEnv} {p : SessionPtr} (h : SendsExactly (env.sends p))
    (argv : List Bytes) : (relay env argv p).sent
      = (packPublishMessage (arg argv 1) (arg argv 2)).take (relay env argv p).total := by
  rw [relay, writeOut_sent h]
  exact range_bytesMemory _ (writeOut_total_le _ _ _)

theorem relay_whole {env : CommandEnv} {p : SessionPtr} (h : SendsExactly (env.sends p))
    (argv : List Bytes) : (relay env argv p).sent = packPublishMessage (arg argv 1) (arg argv 2) ↔
      (relay env argv p).total = (packPublishMessage (arg argv 1) (arg argv 2)).length := by
  have hle : (relay env argv p).total ≤ (packPublishMessage (arg argv 1) (arg argv 2)).length :=
    writeOut_total_le _ _ _
  rw [relay_sent h, List.take_eq_self_iff]
  omega

/-- A channel without a list has no receivers, and the reply is 0. -/
theorem publish_reply (sv : Server) (wrote : SessionPtr → Bool) (w chan message : Bytes) :
    (sv.pubSubPublishCommand wrote [w, chan, message]).2
      = packIntReply ((sv.getSubscriptionSessions chan).countP wrote) := by
  have hsyn : checkSyntax [w, chan, message] 1 1 false = true := rfl
  rw [pubSubPublishCommand, if_pos hsyn]
  simp only [hasSubscriptionChannel, arg, List.getD_cons_succ, List.getD_cons_zero,
    getSubscriptionSessions]
  cases find? chan sv.subscriptionSessions with
  | none => rfl
  | some l => rfl

/-- The answer to a PUBLISH of a message. -/
theorem answer_publish (sv : Server) (name : Bytes) (env : CommandEnv) {argv : List Bytes}
    (hop : opcodeOf argv = some .publish) (hlen : argv.length = 3) :
    sv.answer name env (lowered argv) = ⟨sv,
      (sv.getSubscriptionSessions (arg argv 1)).map fun p => (p, (relay env (lowered argv) p).sent),
      false, packIntReply ((sv.getSubscriptionSessions (arg argv 1)).countP fun p =>
        (relay env (lowered argv) p).total
          = (packPublishMessage (arg argv 1) (arg argv 2)).length)⟩ := by
  obtain ⟨w, chan, message, rfl⟩ := List.length_eq_three.mp hlen
  rw [opcodeOf] at hop
  rw [answer, hop]
  have hl : lowered [w, chan, message] = [w.map toLower, chan, message] := rfl
  simp only [hl, publish_writes, publish_reply, List.map_map]
  rfl

/-- The sessions that were written the whole message. -/
theorem countP_whole {l : List SessionPtr} {run : SessionPtr → WriteRun} {message : Bytes}
    (h : ∀ p, (run p).sent = message ↔ (run p).total = message.length) :
    (l.map fun p => (p, (run p).sent)).countP (fun w => w.2 = message)
      = l.countP fun p => (run p).total = message.length := by
  rw [List.countP_map]
  exact List.countP_congr fun p _ => by simp [h]

/-- A message that is written to the descriptors of some sessions. -/
theorem delivers_of (sv : Server) (l : List SessionPtr) (run : SessionPtr → WriteRun)
    (message : Bytes) (hsent : ∀ p, (run p).sent = message.take (run p).total)
    (hwhole : ∀ p, (run p).sent = message ↔ (run p).total = message.length)
    {answer : ServerAnswer} (h : answer = ⟨sv, l.map fun p => (p, (run p).sent), false,
      packIntReply (l.countP fun p => (run p).total = message.length)⟩) :
    answer.server = sv ∧ answer.written.map Prod.fst = l ∧
      (∀ w ∈ answer.written, w.2 = message.take (run w.1).total) ∧
      answer.reply = packIntReply (answer.written.countP fun w => w.2 = message) := by
  subst h
  refine ⟨rfl, ?_, fun w hw => ?_, ?_⟩
  · dsimp only
    rw [List.map_map]
    exact List.map_id _
  · obtain ⟨p, -, rfl⟩ := List.mem_map.mp hw
    exact hsent p
  · dsimp only
    rw [countP_whole hwhole]

/-- What the answer to a PUBLISH is, when every socket takes the message from its
beginning. -/
theorem answer_delivers (sv : Server) (name : Bytes) {env : CommandEnv} {argv : List Bytes}
    (hexact : ∀ q, SendsExactly (env.sends q)) (hop : opcodeOf argv = some .publish)
    (hlen : argv.length = 3) {message : Bytes}
    (hmessage : packPublishMessage (arg argv 1) (arg argv 2) = message) :
    (sv.answer name env (lowered argv)).server = sv ∧
    (sv.answer name env (lowered argv)).written.map Prod.fst
      = sv.getSubscriptionSessions (arg argv 1) ∧
    (∀ w ∈ (sv.answer name env (lowered argv)).written,
      w.2 = message.take (relay env (lowered argv) w.1).total) ∧
    (sv.answer name env (lowered argv)).reply
      = packIntReply
        ((sv.answer name env (lowered argv)).written.countP fun w => w.2 = message) := by
  have hanswer := answer_publish sv name env hop hlen
  have hlowered : packPublishMessage (arg (lowered argv) 1) (arg (lowered argv) 2) = message := by
    rw [arg_lowered_succ argv 0, arg_lowered_succ argv 1]
    exact hmessage
  have hsent := fun p => relay_sent (hexact p) (lowered argv)
  have hwhole := fun p => relay_whole (hexact p) (lowered argv)
  rw [hlowered] at hsent hwhole
  rw [hmessage] at hanswer
  exact delivers_of sv _ _ message hsent hwhole hanswer

end Server

/-! ## The tables and the subscriptions -/

namespace Process

/-- The tables are right about the open sessions: these are in the list of a channel
as often as they have subscribed to it. The descriptors of the others in a list
lead nowhere. -/
structure Tracks (ps : Process) (es : List Effect) : Prop where
  broadcasts : Broadcasts es
  gone : ∀ q, ps.alive q = false → ∀ chan, subscriptions q es chan = 0
  current : ∀ q, ps.alive q = true → ∀ chan,
    (ps.server.getSubscriptionSessions chan).count q = subscriptions q es chan
  channels : ∀ q sess, ps.alive q = true → find? q.name ps.server.sessions = some sess →
    ∀ chan, chan ∈ sess.subscribedChannels ↔ 0 < subscriptions q es chan
  listed : ∀ chan, ∀ q ∈ ps.server.getSubscriptionSessions chan,
    ps.alive q = true ∨ ps.peer q = none

theorem tracks_new (engine : Engine) : (new engine).Tracks [] :=
  ⟨.nil, fun _ _ _ => rfl, (fun _ h => Bool.noConfusion h), (fun _ _ h => Bool.noConfusion h),
    fun _ _ h => absurd h List.not_mem_nil⟩

section

variable {ps ps' : Process} {p : SessionPtr} {es es' : List Effect}

/-- Effects that tell nothing about subscriptions, with the tables as before. -/
theorem Tracks.same (h : ps.Tracks es) (hs : ps'.server = ps.server)
    (hpeer : ∀ q, ps'.peer q = ps.peer q) (hb : Broadcasts (es ++ es'))
    (hsubs : ∀ q, subscriptions q (es ++ es') = subscriptions q es) : ps'.Tracks (es ++ es') := by
  have halive : ∀ q, ps'.alive q = ps.alive q := fun q => by rw [alive, hs, alive]
  refine ⟨hb, fun q hq => ?_, fun q hq chan => ?_, fun q sess hq hf chan => ?_, fun chan q hq => ?_⟩
  · rw [hsubs]
    exact h.gone q ((halive q).symm.trans hq)
  · rw [hs, hsubs]
    exact h.current q ((halive q).symm.trans hq) chan
  · rw [hsubs]
    rw [hs] at hf
    exact h.channels q sess ((halive q).symm.trans hq) hf chan
  · rw [halive, hpeer]
    rw [hs] at hq
    exact h.listed chan q hq

/-- The same for one effect. -/
theorem Tracks.plain {e : Effect} (h : ps.Tracks es) (hs : ps'.server = ps.server)
    (hpeer : ∀ q, ps'.peer q = ps.peer q) (he : e.plain = true)
    (hsubs : ∀ q subs, e.subscriptions q subs = subs) : ps'.Tracks (es ++ [e]) := by
  refine h.same hs hpeer (.plain h.broadcasts he) fun q => ?_
  rw [subscriptions_append]
  exact hsubs q _

/-- A command of a session that leaves the other sessions where they are. -/
theorem Tracks.command {ctx : Ctx} {argv : List Bytes} {reply : Bytes} {sess sess' : Session}
    (h : ps.Tracks es) (ha : ps.alive p = true)
    (hf : find? p.name ps.server.sessions = some sess)
    (hrep : Server.Replaces ps.server p.name sess' ps'.server) (hptr : sess'.ptr = sess.ptr)
    (hpeer : ∀ q, ps'.peer q = ps.peer q)
    (hplain : (Effect.command p ctx argv reply).plain = true)
    (hother : ∀ q chan, q.name ≠ p.name → (ps'.server.getSubscriptionSessions chan).count q
      = (ps.server.getSubscriptionSessions chan).count q)
    (hlisted : ∀ chan, ∀ q ∈ ps'.server.getSubscriptionSessions chan,
      q = p ∨ q ∈ ps.server.getSubscriptionSessions chan)
    (hcount : ∀ chan, (ps'.server.getSubscriptionSessions chan).count p
      = subscribing argv (subscriptions p es) chan)
    (hchans : ∀ chan, chan ∈ sess'.subscribedChannels
      ↔ 0 < subscribing argv (subscriptions p es) chan) :
    ps'.Tracks (es ++ [.command p ctx argv reply]) := by
  have halive : ∀ q, ps'.alive q = ps.alive q := fun q => by
    rw [Bool.eq_iff_iff, alive_iff, alive_iff, hrep.ptr hf hptr]
  have hmine : subscriptions p (es ++ [.command p ctx argv reply])
      = subscribing argv (subscriptions p es) := by
    rw [subscriptions_append]
    simp [Effect.subscriptions]
  have hyours : ∀ q, q ≠ p → subscriptions q (es ++ [.command p ctx argv reply])
      = subscriptions q es := fun q hq => by
    rw [subscriptions_append]
    simp [Effect.subscriptions, Ne.symm hq]
  have hname : ∀ q, ps.alive q = true → q ≠ p → q.name ≠ p.name := fun q hq hne hn =>
    hne (alive_unique ha hq hn)
  refine ⟨.plain h.broadcasts hplain, fun q hq => ?_, fun q hq chan => ?_, fun q s hq hs chan => ?_,
    fun chan q hq => ?_⟩
  · rw [halive] at hq
    have hqp : q ≠ p := fun hqp => by
      rw [hqp, ha] at hq
      cases hq
    rw [hyours q hqp]
    exact h.gone q hq
  · rw [halive] at hq
    by_cases hqp : q = p
    · rw [hqp, hmine, hcount]
    · rw [hyours q hqp, hother q chan (hname q hq hqp)]
      exact h.current q hq chan
  · rw [halive] at hq
    rw [hrep.find] at hs
    by_cases hqp : q = p
    · subst hqp
      rw [if_pos rfl] at hs
      cases hs
      rw [hmine]
      exact hchans chan
    · rw [if_neg (hname q hq hqp)] at hs
      rw [hyours q hqp]
      exact h.channels q s hq hs chan
  · rw [halive, hpeer]
    rcases hlisted chan q hq with rfl | hq
    · exact .inl ha
    · exact h.listed chan q hq

/-- The entry of a live session is its own. -/
theorem live_entry (ha : ps.alive p = true) :
    ∃ sess, find? p.name ps.server.sessions = some sess ∧ sess.ptr = p :=
  Option.map_eq_some_iff.mp (alive_iff.mp ha)

theorem count_filter_name {l : List SessionPtr} {q : SessionPtr} (h : q.name ≠ p.name) :
    (l.filter fun r => r.name ≠ p.name).count q = l.count q :=
  List.count_filter (by simpa using h)

theorem Tracks.subscribe {ctx : Ctx} {argv : List Bytes} {reply : Bytes} (h : ps.Tracks es)
    (ha : ps.alive p = true) (hop : opcodeOf argv = some .subscribe)
    (hpeer : ∀ q, ps'.peer q = ps.peer q)
    (hs : ps'.server = (ps.server.pubSubSubscribeCommand p.name (lowered argv)).1) :
    ps'.Tracks (es ++ [.command p ctx argv reply]) := by
  obtain ⟨sess, hf, rfl⟩ := live_entry ha
  have hsubs : ∀ chan, subscribing argv (subscriptions sess.ptr es) chan
      = subscriptions sess.ptr es chan + (argv.drop 1).count chan := fun chan => by
    rw [subscribing, if_pos hop]
  obtain ⟨sess', hrep, hptr, -, hchans, hlists⟩ := Server.subscribeTo_all (argv.drop 1) hf
  rw [Server.subscribe_fst hf, lowered, List.drop_succ_cons, List.drop_zero] at hs
  rw [← hs] at hrep hlists
  refine h.command ha hf hrep hptr hpeer (by simp [Effect.plain, Effect.published?, hop])
    (fun q chan hn => ?_) (fun chan q hq => ?_) (fun chan => ?_) fun chan => ?_
  · have hq : q ≠ sess.ptr := fun hq => hn (congrArg SessionPtr.name hq)
    rw [hlists, List.count_append, List.count_replicate]
    simp [Ne.symm hq]
  · rw [hlists] at hq
    exact (List.mem_append.mp hq).symm.imp_left List.eq_of_mem_replicate
  · rw [hlists, List.count_append, List.count_replicate_self, h.current _ ha, hsubs]
  · rw [hchans, hsubs, h.channels _ sess ha hf, ← List.count_pos_iff (l := argv.drop 1)]
    omega

theorem Tracks.unsubscribe {ctx : Ctx} {argv order : List Bytes} {reply : Bytes} (h : ps.Tracks es)
    (ha : ps.alive p = true) (hop : opcodeOf argv = some .unsubscribe)
    (hpeer : ∀ q, ps'.peer q = ps.peer q)
    (hs : ps'.server = (ps.server.pubSubUnsubscribeCommand p.name (lowered argv) order).1) :
    ps'.Tracks (es ++ [.command p ctx argv reply]) := by
  obtain ⟨sess, hf, rfl⟩ := live_entry ha
  have hsubs : ∀ chan, subscribing argv (subscriptions sess.ptr es) chan
      = if argv.drop 1 = [] ∨ chan ∈ argv.drop 1 then 0 else subscriptions sess.ptr es chan :=
    fun chan => by
      rw [subscribing, hop, if_neg (by decide), if_pos rfl]
  rw [Server.unsubscribe_fst hf, if_neg (by simp [lowered])] at hs
  obtain ⟨sess', hrep, hptr, -, hchans, hlists⟩ :=
    Server.unsubscribeFrom_all (ps.server.channelsOf sess.ptr.name (lowered argv) order) hf
  rw [← hs] at hrep hlists
  -- without arguments, a channel that is not given up has no subscription either
  have hgone : ∀ chan, (if chan ∈ ps.server.channelsOf sess.ptr.name (lowered argv) order then 0
      else subscriptions sess.ptr es chan) = subscribing argv (subscriptions sess.ptr es) chan := by
    intro chan
    rw [hsubs]
    by_cases hargs : argv.drop 1 = []
    · have hlen : ¬ 2 ≤ (lowered argv).length := by
        rw [lowered, hargs]
        exact Nat.not_succ_le_self 1
      have hmem := h.channels _ sess ha hf chan
      simp only [Server.mem_channelsOf hf hlen, hmem, hargs, true_or, if_true]
      split <;> omega
    · have hlen : (lowered argv).length ≥ 2 := by
        have hpos := List.length_pos_of_ne_nil hargs
        simp only [lowered, List.length_cons]
        omega
      have hdrop : (lowered argv).drop 1 = argv.drop 1 := rfl
      simp only [Server.channelsOf, if_pos hlen, hdrop, hargs, false_or]
  refine h.command ha hf hrep hptr hpeer (by simp [Effect.plain, Effect.published?, hop])
    (fun q chan hn => ?_) (fun chan q hq => .inr ?_) (fun chan => ?_) fun chan => ?_
  · rw [hlists]
    split
    · exact count_filter_name hn
    · rfl
  · rw [hlists] at hq
    split at hq
    · exact List.mem_of_mem_filter hq
    · exact hq
  · rw [← hgone, hlists]
    split
    · exact List.count_eq_zero_of_not_mem fun hm => by simp at hm
    · exact h.current _ ha chan
  · rw [hchans, ← hgone, h.channels _ sess ha hf]
    split <;> simp_all

/-! ## What PUBLISH writes, and to whom -/

/-- What is written to descriptors that lead to their sessions, or nowhere. -/
theorem relayed_eq {written : List (SessionPtr × Bytes)}
    (h : ∀ w ∈ written, ps.peer w.1 = some w.1 ∨ ps.peer w.1 = none) :
    ps.relayed written = relays (written.filter fun w => ps.peer w.1 = some w.1) := by
  induction written with
  | nil => rfl
  | cons w written ih =>
      have ih := ih fun v hv => h v (List.mem_cons_of_mem _ hv)
      rw [relayed, List.filterMap_cons, List.filter_cons]
      rcases h w List.mem_cons_self with hw | hw
      · simp only [hw, Option.map_some, decide_true, if_true]
        exact congrArg (_ :: ·) ih
      · simp only [hw, Option.map_none, reduceCtorEq, decide_false, Bool.false_eq_true, if_false]
        exact ih

/-- The results of `send` are those of a connection, or there are none. -/
theorem reaches_exactly {env : CommandEnv} (h : ∀ q, SendsExactly (env.sends q)) (q : SessionPtr) :
    SendsExactly ((ps.reaches env).sends q) := by
  change SendsExactly (((ps.peer q).map env.sends).getD [])
  cases ps.peer q with
  | none => exact .of_leading List.not_mem_nil ⟨Nat.zero_le 2, rfl⟩
  | some r => exact h r

theorem relay_nowhere {env : CommandEnv} {q : SessionPtr} (h : ps.peer q = none)
    (argv : List Bytes) : (Server.relay (ps.reaches env) argv q).total = 0 := by
  have hsends : (ps.reaches env).sends q = [] := by
    change ((ps.peer q).map env.sends).getD [] = []
    rw [h]
    rfl
  rw [Server.relay, hsends, writeOut]
  split <;> rfl

/-- A PUBLISH gives its message to the open sessions in the list. -/
theorem Tracks.publish {ctx : Ctx} {argv : List Bytes} {env : CommandEnv} {reply : Bytes}
    (h : ps.Tracks es) (hopen : ∀ q, ps.alive q = true → ps.peer q = some q)
    (hexact : ∀ q, SendsExactly (env.sends q))
    (hop : opcodeOf argv = some .publish) (hlen : argv.length = 3)
    (hpeer : ∀ q, ps'.peer q = ps.peer q)
    (hs : ps'.server = (ps.server.answer p.name (ps.reaches env) (lowered argv)).server)
    (hreply : reply = (ps.server.answer p.name (ps.reaches env) (lowered argv)).reply) :
    ps'.Tracks (es ++ (ps.relayed (ps.server.answer p.name (ps.reaches env) (lowered argv)).written
      ++ [.command p ctx argv reply])) := by
  have hpublished : (Effect.command p ctx argv reply).published? = some (arg argv 1, arg argv 2) :=
    if_pos ⟨hop, hlen⟩
  obtain ⟨hserver, hfst, hbytes, hcount⟩ :=
    Server.answer_delivers ps.server p.name (reaches_exactly hexact) hop hlen rfl
  generalize ps.server.answer p.name (ps.reaches env) (lowered argv) = answer at *
  have hlisted : ∀ w ∈ answer.written, ps.peer w.1 = some w.1 ∨ ps.peer w.1 = none := by
    intro w hw
    have hmem := List.mem_map_of_mem (f := Prod.fst) hw
    rw [hfst] at hmem
    exact (h.listed _ _ hmem).imp_left (hopen _)
  have hsame : ∀ q block, subscriptions q (es ++ (relays block ++ [.command p ctx argv reply]))
      = subscriptions q es := fun q block => by
    have hnone : subscribing argv (subscriptions q es) = subscriptions q es := by
      funext chan
      simp [subscribing, hop]
    rw [← List.append_assoc, subscriptions_append, (relays_quiet block q).subscriptions_append]
    simp [Effect.subscriptions, hnone]
  rw [relayed_eq hlisted]
  refine h.same (hs.trans hserver) hpeer (.publish h.broadcasts hpublished
    ⟨fun q => ?_, fun w hw => ?_, hreply.trans ?_⟩) fun q => hsame q _
  · have hmap : ((answer.written.filter fun w => ps.peer w.1 = some w.1).map Prod.fst)
        = (ps.server.getSubscriptionSessions (arg argv 1)).filter fun r => ps.peer r = some r := by
      rw [← hfst, List.filter_map]
      rfl
    rw [hmap]
    cases hq : ps.alive q with
    | true =>
        rw [List.count_filter (by simpa using hopen q hq)]
        exact h.current q hq _
    | false =>
        rw [h.gone q hq]
        refine List.count_eq_zero_of_not_mem fun hm => ?_
        obtain ⟨hmem, hpeer⟩ := List.mem_filter.mp hm
        rcases h.listed _ q hmem with ha | hnone
        · rw [hq] at ha
          cases ha
        · rw [hnone] at hpeer
          simp at hpeer
  · rw [hbytes w (List.mem_of_mem_filter hw)]
    exact List.take_prefix _ _
  · rw [hcount, List.countP_filter]
    refine congrArg (fun n : Nat => packIntReply n) (List.countP_congr fun w hw => ?_)
    -- a descriptor that leads nowhere takes no byte of the message
    rcases hlisted w hw with hpeer | hpeer
    · simp [hpeer]
    · have hzero : w.2 = [] := by rw [hbytes w hw, relay_nowhere hpeer, List.take_zero]
      have hne : packPublishMessage (arg argv 1) (arg argv 2) ≠ [] := List.cons_ne_nil _ _
      simp [hpeer, hzero, Ne.symm hne]

/-! ## Requests -/

/-- A session that is closed: the others stay in the lists. -/
theorem Tracks.close {server : Server} (h : ps.Tracks es) (hwf : ps.server.WellFormed)
    (ha : ps.alive p = true) (hl : Leaves False ps p [.closed p] (ps.close p server))
    (hsess : server.sessions = erase p.name ps.server.sessions)
    (honly : ∀ chan, ∀ q ∈ server.getSubscriptionSessions chan,
      q ∈ ps.server.getSubscriptionSessions chan)
    (hother : ∀ q chan, q.name ≠ p.name → (server.getSubscriptionSessions chan).count q
      = (ps.server.getSubscriptionSessions chan).count q) :
    (ps.close p server).Tracks (es ++ [.closed p]) := by
  have hmine : subscriptions p (es ++ [.closed p]) = fun _ => 0 := by
    rw [subscriptions_append]
    simp [Effect.subscriptions]
  have hyours : ∀ q, q ≠ p → subscriptions q (es ++ [.closed p]) = subscriptions q es :=
    fun q hq => by
      rw [subscriptions_append]
      simp [Effect.subscriptions, Ne.symm hq]
  have hnotp : ∀ q, (ps.close p server).alive q = true → q ≠ p := fun q hq hqp =>
    ((hl.alive q).mp hq).1 (congrArg SessionPtr.name hqp)
  have hkept : ∀ q, q ≠ p → ps.alive q = true → (ps.close p server).alive q = true :=
    fun q hqp hq => (hl.alive q).mpr ⟨fun hn => hqp (alive_unique ha hq hn), hq⟩
  refine ⟨.plain h.broadcasts rfl, fun q hq chan => ?_, fun q hq chan => ?_,
    fun q sess hq hf chan => ?_, fun chan q hq => ?_⟩
  · by_cases hqp : q = p
    · rw [hqp, hmine]
    · rw [hyours q hqp]
      refine h.gone q (Bool.eq_false_iff.mpr fun hold => ?_) chan
      rw [hkept q hqp hold] at hq
      cases hq
  · obtain ⟨hn, hold⟩ := (hl.alive q).mp hq
    rw [hyours q (hnotp q hq)]
    exact (hother q chan hn).trans (h.current q hold chan)
  · obtain ⟨hn, hold⟩ := (hl.alive q).mp hq
    change find? q.name server.sessions = some sess at hf
    rw [hsess, Server.find?_erased hwf, if_neg hn] at hf
    rw [hyours q (hnotp q hq)]
    exact h.channels q sess hold hf chan
  · rw [hl.peer]
    by_cases hqp : q = p
    · rw [hqp, if_pos rfl]
      exact .inr rfl
    · refine (h.listed chan q (honly chan q hq)).imp (hkept q hqp) fun hnone => ?_
      rw [hnone, ite_self]

theorem Tracks.readClose (h : ps.Tracks es) (hi : ps.Inv) (ha : ps.alive p = true) :
    (ps.close p (ps.server.readClose p.name)).Tracks (es ++ [.closed p]) := by
  have hwf := hi.wellFormed
  obtain ⟨hs, hsess, hnext⟩ := Server.readClose_wellFormed hwf p.name
  obtain ⟨sess, hf, -⟩ := live_entry ha
  have hlists : ∀ chan, (ps.server.readClose p.name).getSubscriptionSessions chan
      = if chan ∈ sess.subscribedChannels then
          (ps.server.getSubscriptionSessions chan).filter fun r => r.name ≠ p.name
        else ps.server.getSubscriptionSessions chan := by
    intro chan
    rw [Server.readClose, hf]
    exact (Server.remove_all p.name sess.subscribedChannels ps.server).2.2 chan
  refine h.close hwf ha
    (close_leaves hwf (hi.isOpen p ha) hs hsess hnext ⟨[.readClose p.name], rfl⟩) hsess
    (fun chan q hq => ?_) fun q chan hn => ?_
  · rw [hlists] at hq
    split at hq
    · exact List.mem_of_mem_filter hq
    · exact hq
  · rw [hlists]
    split
    · exact count_filter_name hn
    · rfl

theorem Tracks.writeClose (h : ps.Tracks es) (hi : ps.Inv) (ha : ps.alive p = true) :
    (ps.close p (ps.server.writeClose p.name)).Tracks (es ++ [.closed p]) :=
  h.close hi.wellFormed ha (close_leaves hi.wellFormed (hi.isOpen p ha)
    (Server.writeClose_wellFormed hi.wellFormed p.name) rfl rfl
    ⟨[.writeClose p.name], rfl⟩) rfl (fun _ _ hq => hq) fun _ _ _ => rfl

/-- The lists are as before an accept, and the descriptors of the sessions in them. -/
theorem Tracks.accepts {fd : Nat} (h : ps.Tracks es) (hacc : Accepts ps p fd ps')
    (hlists : ∀ chan, ps'.server.getSubscriptionSessions chan
      = ps.server.getSubscriptionSessions chan)
    (hkept : ∀ q, ps.alive q = true → ps'.alive q = true)
    (hfree : ∀ chan, ∀ q ∈ ps.server.getSubscriptionSessions chan, (ps.io q).fd ≠ fd)
    (hwf : ps.server.WellFormed) {chan : Bytes} {q : SessionPtr}
    (hq : q ∈ ps'.server.getSubscriptionSessions chan) :
    ps'.alive q = true ∨ ps'.peer q = none := by
  rw [hlists] at hq
  have hqp : q ≠ p := fun hqp => by
    have hold := hwf.listedOld chan q hq
    rw [hqp, hacc.number] at hold
    exact Nat.lt_irrefl _ hold
  refine (h.listed chan q hq).imp (hkept q) fun hnone => ?_
  rw [peer, hacc.io, if_neg hqp, hacc.fds, Function.update_of_ne (hfree chan q hq)]
  exact hnone

end

end Process

namespace Process

/-! ## A run of two turns -/

section

variable {s : Engine} {ps ps' : Process} {es es' : List Effect}

/-- A connection that gets the number of a closed subscriber. -/
def stranger : SessionPtr := ⟨pingAddr, 2⟩

/-- A peer subscribes and `WriteProc` closes its session; the next connection gets the
number, and publishes. -/
def strangerTurns : List Turn :=
  let request (text : String) : Nat → UInt8 := fun i => (ascii text).getD i 0
  [pingAccept,
    ⟨[], [.session pingSession epollIn
      ⟨request "*2\r\n$9\r\nsubscribe\r\n$1\r\nc\r\n", [.count 25], fun _ => pingEnv, []⟩], 1, []⟩,
    ⟨[], [.session pingSession epollOut ⟨fun _ => 0, [], fun _ => pingEnv, [.closed]⟩], 2, []⟩,
    ⟨[], [.listen epollIn (some ⟨pingAddr, 7, true⟩)], 3, []⟩,
    ⟨[], [.session stranger epollIn
      ⟨request "*3\r\n$7\r\npublish\r\n$1\r\nc\r\n$1\r\nm\r\n", [.count 30],
        fun _ => { pingEnv with sends := fun _ => [.count 63] }, []⟩], 4, []⟩]

/-- Without the condition on the numbers a session is written what it never asked for. -/
theorem stranger_written : ((new .new).run strangerTurns).toOption.map
    (fun r => (relayedTo stranger r.2, newsFor stranger r.2))
      = some ([packPublishMessage (ascii "c") (ascii "m")], []) := by decide +kernel

end

end Process

end LiteKV
