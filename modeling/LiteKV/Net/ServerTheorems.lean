/-
LiteKV.Net.ServerTheorems — when the subscription tables agree.

`Agrees` is the agreement of the three places a subscription is kept in.
Every event has an exact effect on the sessions and on each list, and from
it the events that keep the agreement can be read off: `Fits`. The others
break it. A channel that is already subscribed is pushed into its list
again; `unsubscribe` of some channels clears the mode although others are
left; and `WriteProc` closes a connection without taking it out of the
lists, which `ReadProc` does.
-/
import LiteKV.Net.Server
import LiteKV.Lib.Run
import LiteKV.NumTheorems
import Mathlib.Data.List.Count

namespace LiteKV.Server

open Lib.AssocList

/-- The session is connected and has subscribed to the channel. -/
def Subscribed (sv : Server) (p : SessionPtr) (chan : Bytes) : Prop :=
  ∃ sess, find? p.name sv.sessions = some sess ∧ sess.ptr = p ∧ chan ∈ sess.subscribedChannels

/-- A channel's list has each of its subscribers once and nobody else, and the
mode bit tells whether a session has subscribed to anything. -/
structure Agrees (sv : Server) : Prop where
  once : ∀ chan p, sv.Subscribed p chan → (sv.getSubscriptionSessions chan).count p = 1
  only : ∀ chan p, p ∈ sv.getSubscriptionSessions chan → sv.Subscribed p chan
  mode : ∀ name sess, find? name sv.sessions = some sess →
    (sess.pubSub = true ↔ sess.subscribedChannels ≠ [])

/-- Sessions are stored under their names, and no session has a number that is
still to be given. -/
structure WellFormed (sv : Server) : Prop where
  nodup : (keys sv.sessions).Nodup
  named : ∀ name sess, find? name sv.sessions = some sess → sess.ptr.name = name
  sessionOld : ∀ name sess, find? name sv.sessions = some sess → sess.ptr.id < sv.nextSessionId
  listedOld : ∀ chan p, p ∈ sv.getSubscriptionSessions chan → p.id < sv.nextSessionId

theorem wellFormed_new : new.WellFormed :=
  ⟨List.nodup_nil, (fun _ _ h => nomatch h), (fun _ _ h => nomatch h), (fun _ _ h => nomatch h)⟩

theorem agrees_new : new.Agrees :=
  ⟨(fun _ _ ⟨_, h, _⟩ => nomatch h), (fun _ _ h => nomatch h), (fun _ _ h => nomatch h)⟩

/-! ## What the loops do -/

/-- The session of a name is replaced, and all others stay. -/
structure Replaces (sv : Server) (name : Bytes) (sess : Session) (sv' : Server) : Prop where
  keys : keys sv'.sessions = keys sv.sessions
  find : ∀ n, find? n sv'.sessions = if n = name then some sess else find? n sv.sessions
  next : sv'.nextSessionId = sv.nextSessionId

theorem Replaces.trans {sv sv₁ sv₂ : Server} {name : Bytes} {sess₁ sess₂ : Session}
    (h₁ : Replaces sv name sess₁ sv₁) (h₂ : Replaces sv₁ name sess₂ sv₂) :
    Replaces sv name sess₂ sv₂ := by
  refine ⟨h₂.keys.trans h₁.keys, fun n => ?_, h₂.next.trans h₁.next⟩
  rw [h₂.find, h₁.find]
  split <;> rfl

theorem replaces_self {sv : Server} {name : Bytes} {sess : Session}
    (h : find? name sv.sessions = some sess) : Replaces sv name sess sv := by
  refine ⟨rfl, fun n => ?_, rfl⟩
  split
  · rename_i hn
    rw [hn, h]
  · rfl

theorem modifySession_replaces {sv : Server} {name : Bytes} {sess : Session}
    (h : find? name sv.sessions = some sess) (f : Session → Session) :
    Replaces sv name (f sess) (sv.modifySession name f) := by
  rw [modifySession, h]
  refine ⟨keys_reset _ _ _, fun n => ?_, rfl⟩
  rw [find?_reset, h, Option.map_some]

@[simp] theorem getSubscriptionSessions_modifySession (sv : Server) (name : Bytes)
    (f : Session → Session) (chan : Bytes) :
    (sv.modifySession name f).getSubscriptionSessions chan = sv.getSubscriptionSessions chan := by
  rw [modifySession]
  split <;> rfl

theorem getSubscriptionSessions_put (sv : Server) (chan c : Bytes) (l : List SessionPtr) :
    ({ sv with subscriptionSessions := put chan l sv.subscriptionSessions } :
      Server).getSubscriptionSessions c = if c = chan then l else sv.getSubscriptionSessions c := by
  rw [getSubscriptionSessions, find?_put]
  split <;> rfl

theorem fst_eachChannel (cmdName name : Bytes) (f : Server → Bytes → Server) :
    ∀ (chans : List Bytes) (sv : Server), (eachChannel cmdName name f chans sv).1 = chans.foldl f sv
  | [], _ => rfl
  | chan :: chans, sv => fst_eachChannel cmdName name f chans (f sv chan)

theorem subscribeTo_eq {sv : Server} {name : Bytes} {sess : Session}
    (h : find? name sv.sessions = some sess) (chan : Bytes) :
    subscribeTo name sv chan = { sv.modifySession name (Session.addChannel chan) with
      subscriptionSessions := put chan (sv.getSubscriptionSessions chan ++ [sess.ptr])
        (sv.modifySession name (Session.addChannel chan)).subscriptionSessions } := by
  have hfind := (modifySession_replaces h (Session.addChannel chan)).find name
  rw [if_pos rfl] at hfind
  simp only [subscribeTo, addSessionToSubscription, hfind, getSubscriptionSessions_modifySession,
    Session.addChannel]

theorem subscribeTo_replaces {sv : Server} {name : Bytes} {sess : Session}
    (h : find? name sv.sessions = some sess) (chan : Bytes) :
    Replaces sv name (sess.addChannel chan) (subscribeTo name sv chan) := by
  have hrep := modifySession_replaces h (Session.addChannel chan)
  rw [subscribeTo_eq h]
  exact ⟨hrep.keys, hrep.find, hrep.next⟩

theorem subscribeTo_lists {sv : Server} {name : Bytes} {sess : Session}
    (h : find? name sv.sessions = some sess) (chan c : Bytes) :
    (subscribeTo name sv chan).getSubscriptionSessions c
      = if c = chan then sv.getSubscriptionSessions chan ++ [sess.ptr]
        else sv.getSubscriptionSessions c := by
  rw [subscribeTo_eq h, getSubscriptionSessions_put, getSubscriptionSessions_modifySession]

/-- `subscribe` puts the session into the list of a channel as often as the
channel is named. -/
theorem subscribeTo_all {name : Bytes} : ∀ (chans : List Bytes) {sv : Server} {sess : Session},
    find? name sv.sessions = some sess →
    ∃ sess', Replaces sv name sess' (chans.foldl (subscribeTo name) sv) ∧ sess'.ptr = sess.ptr ∧
      sess'.pubSub = (sess.pubSub || !chans.isEmpty) ∧
      (∀ c, c ∈ sess'.subscribedChannels ↔ c ∈ sess.subscribedChannels ∨ c ∈ chans) ∧
      ∀ c, (chans.foldl (subscribeTo name) sv).getSubscriptionSessions c
        = sv.getSubscriptionSessions c ++ List.replicate (chans.count c) sess.ptr
  | [], sv, sess, h => by
      refine ⟨sess, replaces_self h, rfl, by simp, by simp, by simp⟩
  | chan :: chans, sv, sess, h => by
      have hrep := subscribeTo_replaces h chan
      have hfind := hrep.find name
      rw [if_pos rfl] at hfind
      obtain ⟨sess', hrep', hptr, hmode, hchans, hlists⟩ := subscribeTo_all chans hfind
      refine ⟨sess', hrep.trans hrep', hptr, ?_, fun c => ?_, fun c => ?_⟩
      · rw [hmode]
        simp [Session.addChannel]
      · rw [hchans, Session.addChannel, List.mem_insert_iff, List.mem_cons, or_comm (a := c = chan),
          or_assoc]
      · rw [List.foldl_cons, hlists, subscribeTo_lists h]
        by_cases hc : c = chan
        · subst hc
          rw [if_pos rfl, List.append_assoc, List.count_cons_self, List.replicate_succ]
          rfl
        · rw [if_neg hc, List.count_cons_of_ne (Ne.symm hc)]
          rfl

/-- A list without the sessions of a name. -/
theorem removeSessionFromSubscription_lists (sv : Server) (chan name c : Bytes) :
    (sv.removeSessionFromSubscription chan name).getSubscriptionSessions c
      = if c = chan then (sv.getSubscriptionSessions chan).filter fun p => p.name ≠ name
        else sv.getSubscriptionSessions c := getSubscriptionSessions_put sv chan c _

/-- Taking a session out of one list more. -/
theorem filtered_cons {c chan : Bytes} {chans : List Bytes} {l l' : List SessionPtr} {name : Bytes}
    (h : l' = if c = chan then l.filter fun p => p.name ≠ name else l) :
    (if c ∈ chans then l'.filter fun p => p.name ≠ name else l')
      = if c ∈ chan :: chans then l.filter fun p => p.name ≠ name else l := by
  subst h
  by_cases hc : c = chan
  · subst hc
    rw [if_pos rfl, if_pos List.mem_cons_self, List.filter_filter]
    simp only [Bool.and_self, ite_self]
  · rw [if_neg hc]
    simp only [List.mem_cons, hc, false_or]

/-- Taking a session out of the lists of some channels. -/
theorem remove_all (name : Bytes) : ∀ (chans : List Bytes) (sv : Server),
    (chans.foldl (·.removeSessionFromSubscription · name) sv).sessions = sv.sessions ∧
    (chans.foldl (·.removeSessionFromSubscription · name) sv).nextSessionId = sv.nextSessionId ∧
    ∀ c, (chans.foldl (·.removeSessionFromSubscription · name) sv).getSubscriptionSessions c
      = if c ∈ chans then (sv.getSubscriptionSessions c).filter fun p => p.name ≠ name
        else sv.getSubscriptionSessions c
  | [], sv => ⟨rfl, rfl, fun c => by rw [if_neg List.not_mem_nil]; rfl⟩
  | chan :: chans, sv => by
      obtain ⟨hs, hn, hl⟩ := remove_all name chans (sv.removeSessionFromSubscription chan name)
      refine ⟨hs, hn, fun c => ?_⟩
      rw [List.foldl_cons, hl]
      refine filtered_cons ?_
      rw [removeSessionFromSubscription_lists]
      split
      · rename_i hc
        rw [hc]
      · rfl

/-- `unsubscribe` takes it out of the lists of the channels that are named. -/
theorem unsubscribeFrom_all {name : Bytes} : ∀ (chans : List Bytes) {sv : Server} {sess : Session},
    find? name sv.sessions = some sess →
    ∃ sess', Replaces sv name sess' (chans.foldl (unsubscribeFrom name) sv) ∧
      sess'.ptr = sess.ptr ∧ sess'.pubSub = (sess.pubSub && chans.isEmpty) ∧
      (∀ c, c ∈ sess'.subscribedChannels ↔ c ∈ sess.subscribedChannels ∧ c ∉ chans) ∧
      ∀ c, (chans.foldl (unsubscribeFrom name) sv).getSubscriptionSessions c
        = if c ∈ chans then (sv.getSubscriptionSessions c).filter fun p => p.name ≠ name
          else sv.getSubscriptionSessions c
  | [], sv, sess, h => by
      refine ⟨sess, replaces_self h, rfl, by simp, by simp, fun c => ?_⟩
      rw [if_neg List.not_mem_nil]
      rfl
  | chan :: chans, sv, sess, h => by
      have hmod := modifySession_replaces h (Session.dropChannel chan)
      have hrep : Replaces sv name (sess.dropChannel chan) (unsubscribeFrom name sv chan) :=
        ⟨hmod.keys, hmod.find, hmod.next⟩
      have hfind := hrep.find name
      rw [if_pos rfl] at hfind
      obtain ⟨sess', hrep', hptr, hmode, hchans, hlists⟩ := unsubscribeFrom_all chans hfind
      refine ⟨sess', hrep.trans hrep', hptr, ?_, fun c => ?_, fun c => ?_⟩
      · rw [hmode]
        simp [Session.dropChannel]
      · rw [hchans, Session.dropChannel, List.mem_filter, decide_eq_true_eq, List.mem_cons, not_or,
          and_assoc]
      · rw [List.foldl_cons, hlists]
        refine filtered_cons ?_
        rw [unsubscribeFrom, removeSessionFromSubscription_lists,
          getSubscriptionSessions_modifySession, getSubscriptionSessions_modifySession]
        split
        · rename_i hc
          rw [hc]
        · rfl

/-! ## After a replacement -/

section

variable {sv sv' : Server} {name : Bytes} {sess sess' : Session}

theorem Replaces.subscribed (h : Replaces sv name sess' sv') {p : SessionPtr} {chan : Bytes} :
    sv'.Subscribed p chan ↔
      if p.name = name then sess'.ptr = p ∧ chan ∈ sess'.subscribedChannels
      else sv.Subscribed p chan := by
  unfold Subscribed
  rw [h.find]
  split
  · constructor
    · rintro ⟨s, hs, hp, hc⟩
      cases hs
      exact ⟨hp, hc⟩
    · rintro ⟨hp, hc⟩
      exact ⟨sess', rfl, hp, hc⟩
  · rfl

/-- What a session has subscribed to. -/
theorem WellFormed.subscribed_iff (hwf : sv.WellFormed) (hf : find? name sv.sessions = some sess)
    {chan : Bytes} : sv.Subscribed sess.ptr chan ↔ chan ∈ sess.subscribedChannels := by
  rw [(replaces_self hf).subscribed, if_pos (hwf.named name sess hf)]
  simp

theorem Replaces.wellFormed (h : Replaces sv name sess' sv') (hwf : sv.WellFormed)
    (hf : find? name sv.sessions = some sess) (hptr : sess'.ptr = sess.ptr)
    (hold : ∀ chan p, p ∈ sv'.getSubscriptionSessions chan → p.id < sv.nextSessionId) :
    sv'.WellFormed := by
  have hsess :
      ∀ n s, find? n sv'.sessions = some s → s.ptr.name = n ∧ s.ptr.id < sv.nextSessionId := by
    intro n s hs
    rw [h.find] at hs
    split at hs
    · rename_i hn
      cases hs
      rw [hptr, hn]
      exact ⟨hwf.named name sess hf, hwf.sessionOld name sess hf⟩
    · exact ⟨hwf.named n s hs, hwf.sessionOld n s hs⟩
  refine ⟨h.keys ▸ hwf.nodup, fun n s hs => (hsess n s hs).1, fun n s hs => ?_, fun chan p hp => ?_⟩
  · rw [h.next]
    exact (hsess n s hs).2
  · rw [h.next]
    exact hold chan p hp

theorem Replaces.mode (h : Replaces sv name sess' sv') (ha : sv.Agrees) :
    (∀ n s, find? n sv'.sessions = some s → (s.pubSub = true ↔ s.subscribedChannels ≠ [])) ↔
      (sess'.pubSub = true ↔ sess'.subscribedChannels ≠ []) := by
  constructor
  · intro hall
    exact hall name sess' (by rw [h.find, if_pos rfl])
  · intro hnew n s hs
    rw [h.find] at hs
    split at hs
    · cases hs
      exact hnew
    · exact ha.mode n s hs

end

/-! ## One event -/

section

variable {sv : Server} {name : Bytes} {sess : Session}

theorem Agrees.count_eq (ha : sv.Agrees) (hwf : sv.WellFormed)
    (hf : find? name sv.sessions = some sess) (chan : Bytes) :
    (sv.getSubscriptionSessions chan).count sess.ptr
      = if chan ∈ sess.subscribedChannels then 1 else 0 := by
  have hiff : sv.Subscribed sess.ptr chan ↔ chan ∈ sess.subscribedChannels := hwf.subscribed_iff hf
  split
  · rename_i hc
    exact ha.once chan sess.ptr (hiff.mpr hc)
  · rename_i hc
    exact List.count_eq_zero_of_not_mem fun hm => hc (hiff.mp (ha.only chan sess.ptr hm))

/-- A subscriber of the name is the session. -/
theorem Agrees.eq_ptr (ha : sv.Agrees) (hf : find? name sv.sessions = some sess) {chan : Bytes}
    {p : SessionPtr} (hp : p ∈ sv.getSubscriptionSessions chan) (hn : p.name = name) :
    sess.ptr = p := by
  have hs := ha.only chan p hp
  rw [(replaces_self hf).subscribed, if_pos hn] at hs
  exact hs.1

theorem subscribe_wellFormed (hwf : sv.WellFormed) (hf : find? name sv.sessions = some sess)
    (chans : List Bytes) : (chans.foldl (subscribeTo name) sv).WellFormed := by
  obtain ⟨sess', hrep, hptr, -, -, hlists⟩ := subscribeTo_all chans hf
  refine hrep.wellFormed hwf hf hptr fun chan p hp => ?_
  rw [hlists, List.mem_append] at hp
  rcases hp with hp | hp
  · exact hwf.listedOld chan p hp
  · rw [List.eq_of_mem_replicate hp]
    exact hwf.sessionOld name sess hf

theorem subscribe_agrees_iff (hwf : sv.WellFormed) (ha : sv.Agrees)
    (hf : find? name sv.sessions = some sess) (chans : List Bytes) :
    (chans.foldl (subscribeTo name) sv).Agrees ↔
      chans.Nodup ∧ ∀ c ∈ chans, c ∉ sess.subscribedChannels := by
  obtain ⟨sess', hrep, hptr, hmode, hchans, hlists⟩ := subscribeTo_all chans hf
  have hname := hwf.named name sess hf
  have hold := ha.count_eq hwf hf
  have hsub : ∀ p chan, (chans.foldl (subscribeTo name) sv).Subscribed p chan ↔
      if p.name = name then sess.ptr = p ∧ (chan ∈ sess.subscribedChannels ∨ chan ∈ chans)
      else sv.Subscribed p chan := by
    intro p chan
    rw [hrep.subscribed, hptr, hchans]
  have hcount : ∀ c, ((chans.foldl (subscribeTo name) sv).getSubscriptionSessions c).count sess.ptr
      = (if c ∈ sess.subscribedChannels then 1 else 0) + chans.count c := by
    intro c
    rw [hlists, List.count_append, hold, List.count_replicate_self]
  constructor
  · intro hnew
    have hone :
        ∀ c ∈ chans, (if c ∈ sess.subscribedChannels then 1 else 0) + chans.count c = 1 := by
      intro c hc
      rw [← hcount]
      refine hnew.once c sess.ptr ((hsub _ _).mpr ?_)
      rw [if_pos hname]
      exact ⟨rfl, Or.inr hc⟩
    have hpos : ∀ c ∈ chans, 0 < chans.count c := fun c hc => List.count_pos_iff.mpr hc
    refine ⟨List.nodup_iff_count_le_one.mpr fun c => ?_, fun c hc hin => ?_⟩
    · by_cases hc : c ∈ chans
      · have := hone c hc
        omega
      · rw [List.count_eq_zero_of_not_mem hc]
        omega
    · have h1 := hone c hc
      have h2 := hpos c hc
      rw [if_pos hin] at h1
      omega
  · rintro ⟨hnodup, hfresh⟩
    refine ⟨fun chan p hp => ?_, fun chan p hp => ?_, (hrep.mode ha).mpr ?_⟩
    · rw [hsub] at hp
      split at hp
      · obtain ⟨rfl, hin⟩ := hp
        rw [hcount]
        by_cases hc : chan ∈ chans
        · rw [if_neg (hfresh chan hc), List.count_eq_one_of_mem hnodup hc]
        · rw [if_pos (hin.resolve_right hc), List.count_eq_zero_of_not_mem hc]
      · rename_i hn
        have hne : sess.ptr ≠ p := fun h => hn (h ▸ hname)
        rw [hlists, List.count_append, ha.once chan p hp, List.count_replicate,
          if_neg (by simpa using hne)]
    · rw [hsub]
      rw [hlists, List.mem_append] at hp
      split
      · rename_i hn
        rcases hp with hp | hp
        · have hptr := ha.eq_ptr hf hp hn
          subst hptr
          exact ⟨rfl, Or.inl ((hwf.subscribed_iff hf).mp (ha.only chan _ hp))⟩
        · obtain ⟨hne, rfl⟩ := List.mem_replicate.mp hp
          exact ⟨rfl, Or.inr (List.count_pos_iff.mp (Nat.pos_of_ne_zero hne))⟩
      · rename_i hn
        rcases hp with hp | hp
        · exact ha.only chan p hp
        · exact absurd (List.eq_of_mem_replicate hp ▸ hname) hn
    · -- the mode is set when a channel is named
      have hbefore := ha.mode name sess hf
      cases chans with
      | nil =>
          have hsame : sess'.subscribedChannels = [] ↔ sess.subscribedChannels = [] := by
            simp only [List.eq_nil_iff_forall_not_mem, hchans, List.not_mem_nil, or_false]
          rw [hmode, List.isEmpty_nil, Bool.not_true, Bool.or_false, hbefore, ne_eq, ne_eq, hsame]
      | cons c cs =>
          rw [hmode, List.isEmpty_cons, Bool.not_false, Bool.or_true]
          have hmem := (hchans c).mpr (Or.inr List.mem_cons_self)
          exact ⟨fun _ => List.ne_nil_of_mem hmem, fun _ => rfl⟩

theorem unsubscribe_wellFormed (hwf : sv.WellFormed) (hf : find? name sv.sessions = some sess)
    (chans : List Bytes) : (chans.foldl (unsubscribeFrom name) sv).WellFormed := by
  obtain ⟨sess', hrep, hptr, -, -, hlists⟩ := unsubscribeFrom_all chans hf
  refine hrep.wellFormed hwf hf hptr fun chan p hp => hwf.listedOld chan p ?_
  rw [hlists] at hp
  split at hp
  · exact List.mem_of_mem_filter hp
  · exact hp

theorem unsubscribe_agrees_iff (hwf : sv.WellFormed) (ha : sv.Agrees)
    (hf : find? name sv.sessions = some sess) (chans : List Bytes) :
    (chans.foldl (unsubscribeFrom name) sv).Agrees ↔
      (chans ≠ [] → ∀ c ∈ sess.subscribedChannels, c ∈ chans) := by
  obtain ⟨sess', hrep, hptr, hmode, hchans, hlists⟩ := unsubscribeFrom_all chans hf
  have hname := hwf.named name sess hf
  -- the mode agrees when every channel goes, or none
  have hmodes : (sess'.pubSub = true ↔ sess'.subscribedChannels ≠ []) ↔
      (chans ≠ [] → ∀ c ∈ sess.subscribedChannels, c ∈ chans) := by
    have hnil : sess'.subscribedChannels = [] ↔ ∀ c ∈ sess.subscribedChannels, c ∈ chans := by
      simp only [List.eq_nil_iff_forall_not_mem, hchans, not_and, not_not]
    cases chans with
    | nil =>
        have hbefore := ha.mode name sess hf
        have hsame : sess'.subscribedChannels = [] ↔ sess.subscribedChannels = [] := by
          rw [hnil, List.eq_nil_iff_forall_not_mem]
          simp only [List.not_mem_nil]
        rw [hmode, List.isEmpty_nil, Bool.and_true, hbefore, ne_eq, ne_eq, hsame]
        simp
    | cons c cs =>
        rw [hmode, List.isEmpty_cons, Bool.and_false, ← hnil]
        simp
  constructor
  · intro hnew
    exact hmodes.mp ((hrep.mode ha).mp hnew.mode)
  · intro hall
    refine ⟨fun chan p hp => ?_, fun chan p hp => ?_, (hrep.mode ha).mpr (hmodes.mpr hall)⟩
    · rw [hrep.subscribed] at hp
      split at hp
      · obtain ⟨hp, hc⟩ := hp
        obtain ⟨hin, hout⟩ := (hchans chan).mp hc
        rw [hptr] at hp
        subst hp
        rw [hlists, if_neg hout, ha.count_eq hwf hf, if_pos hin]
      · rename_i hn
        rw [hlists]
        split
        · rw [List.count_filter (by simpa using hn)]
          exact ha.once chan p hp
        · exact ha.once chan p hp
    · rw [hlists] at hp
      rw [hrep.subscribed]
      split at hp
      · obtain ⟨hp, hn⟩ := List.mem_filter.mp hp
        rw [if_neg (by simpa using hn)]
        exact ha.only chan p hp
      · rename_i hc
        split
        · rename_i hn
          have hp' := ha.eq_ptr hf hp hn
          subst hp'
          exact ⟨hptr, (hchans chan).mpr ⟨(hwf.subscribed_iff hf).mp (ha.only chan _ hp), hc⟩⟩
        · exact ha.only chan p hp

/-- The session of the name is gone, or a new one has its name, and the lists are
as they were. -/
theorem vacated_agrees_iff {sv' : Server} (hwf : sv.WellFormed) (ha : sv.Agrees)
    (hsub : ∀ p chan, sv'.Subscribed p chan ↔ p.name ≠ name ∧ sv.Subscribed p chan)
    (hlists : ∀ chan, sv'.getSubscriptionSessions chan = sv.getSubscriptionSessions chan)
    (hmode : ∀ n s, find? n sv'.sessions = some s → (s.pubSub = true ↔ s.subscribedChannels ≠ [])) :
    sv'.Agrees ↔ ∀ sess ∈ find? name sv.sessions, sess.subscribedChannels = [] := by
  constructor
  · intro hnew sess hf
    -- a channel of the session would still list it
    refine List.eq_nil_iff_forall_not_mem.mpr fun chan hc => ?_
    have hcount := ha.once chan sess.ptr ((hwf.subscribed_iff hf).mpr hc)
    have hmem : sess.ptr ∈ sv'.getSubscriptionSessions chan := by
      rw [hlists]
      exact List.count_pos_iff.mp (by omega)
    exact ((hsub _ _).mp (hnew.only chan sess.ptr hmem)).1 (hwf.named name sess hf)
  · intro hnone
    refine ⟨fun chan p hp => ?_, fun chan p hp => ?_, hmode⟩
    · rw [hlists]
      exact ha.once chan p ((hsub p chan).mp hp).2
    · rw [hlists] at hp
      refine (hsub p chan).mpr ⟨fun hn => ?_, ha.only chan p hp⟩
      obtain ⟨sess, hf, -, hc⟩ := ha.only chan p hp
      rw [hn] at hf
      rw [hnone sess hf] at hc
      exact absurd hc List.not_mem_nil

theorem find?_erased (hwf : sv.WellFormed) (n : Bytes) :
    find? n (erase name sv.sessions) = if n = name then none else find? n sv.sessions :=
  find?_erase hwf.nodup name n

theorem erased_some (hwf : sv.WellFormed) {n : Bytes}
    (h : find? n (erase name sv.sessions) = some sess) : find? n sv.sessions = some sess := by
  rw [find?_erased hwf] at h
  split at h
  · cases h
  · exact h

theorem erased_subscribed {sv' : Server} (hwf : sv.WellFormed)
    (hs : sv'.sessions = erase name sv.sessions) (p : SessionPtr) (chan : Bytes) :
    sv'.Subscribed p chan ↔ p.name ≠ name ∧ sv.Subscribed p chan := by
  unfold Subscribed
  rw [hs, find?_erased hwf]
  split
  · rename_i hn
    simp [hn]
  · rename_i hn
    simp [hn]

theorem erased_wellFormed {sv' : Server} (hwf : sv.WellFormed)
    (hs : sv'.sessions = erase name sv.sessions) (hnext : sv'.nextSessionId = sv.nextSessionId)
    (hlists : ∀ chan, sv'.getSubscriptionSessions chan ⊆ sv.getSubscriptionSessions chan) :
    sv'.WellFormed := by
  refine ⟨hs ▸ nodup_erase hwf.nodup, fun n s h => ?_, fun n s h => ?_, fun chan p hp => ?_⟩
  · rw [hs] at h
    exact hwf.named n s (erased_some hwf h)
  · rw [hs] at h
    rw [hnext]
    exact hwf.sessionOld n s (erased_some hwf h)
  · rw [hnext]
    exact hwf.listedOld chan p (hlists chan hp)

theorem writeClose_wellFormed (hwf : sv.WellFormed) (name : Bytes) :
    (sv.writeClose name).WellFormed :=
  erased_wellFormed hwf rfl rfl fun _ => List.Subset.refl _

theorem writeClose_agrees_iff (hwf : sv.WellFormed) (ha : sv.Agrees) (name : Bytes) :
    (sv.writeClose name).Agrees ↔ ∀ sess ∈ find? name sv.sessions, sess.subscribedChannels = [] :=
  vacated_agrees_iff hwf ha (erased_subscribed hwf rfl) (fun _ => rfl) fun n s h =>
    ha.mode n s (erased_some hwf h)

/-- `ReadProc` takes the session out of the lists of its channels first. -/
theorem readClose_keeps (hwf : sv.WellFormed) (ha : sv.Agrees) (name : Bytes) :
    (sv.readClose name).WellFormed ∧ (sv.readClose name).Agrees := by
  unfold readClose
  cases hf : find? name sv.sessions with
  | none => exact ⟨hwf, ha⟩
  | some sess =>
      obtain ⟨hs, hn, hl⟩ := remove_all name sess.subscribedChannels sv
      have hsess : ({ sess.subscribedChannels.foldl (·.removeSessionFromSubscription · name) sv with
          sessions := erase name (sess.subscribedChannels.foldl
            (·.removeSessionFromSubscription · name) sv).sessions } : Server).sessions
            = erase name sv.sessions := by rw [hs]
      refine ⟨erased_wellFormed hwf hsess hn fun chan p hp => ?_, fun chan p hp => ?_,
        fun chan p hp => ?_, fun n s h => ?_⟩
      · change p ∈ (sess.subscribedChannels.foldl
          (·.removeSessionFromSubscription · name) sv).getSubscriptionSessions chan at hp
        rw [hl] at hp
        split at hp
        · exact List.mem_of_mem_filter hp
        · exact hp
      · obtain ⟨hne, hp⟩ := (erased_subscribed hwf hsess p chan).mp hp
        change ((sess.subscribedChannels.foldl
          (·.removeSessionFromSubscription · name) sv).getSubscriptionSessions chan).count p = 1
        rw [hl]
        split
        · rw [List.count_filter (by simpa using hne)]
          exact ha.once chan p hp
        · exact ha.once chan p hp
      · change p ∈ (sess.subscribedChannels.foldl
          (·.removeSessionFromSubscription · name) sv).getSubscriptionSessions chan at hp
        rw [hl] at hp
        rw [erased_subscribed hwf hsess]
        split at hp
        · obtain ⟨hp, hne⟩ := List.mem_filter.mp hp
          exact ⟨by simpa using hne, ha.only chan p hp⟩
        · rename_i hc
          refine ⟨fun hname => hc ?_, ha.only chan p hp⟩
          have hptr := ha.eq_ptr hf hp hname
          subst hptr
          exact (hwf.subscribed_iff hf).mp (ha.only chan _ hp)
      · rw [hsess] at h
        exact ha.mode n s (erased_some hwf h)

theorem acceptProc_find (sv : Server) (addr : Ipv4Addr) (n : Bytes) :
    find? n (sv.acceptProc addr true).sessions
      = if n = SessionPtr.name ⟨addr, sv.nextSessionId⟩ then
          some ⟨⟨addr, sv.nextSessionId⟩, false, []⟩
        else find? n sv.sessions := find?_put _ _ _ _

theorem acceptProc_wellFormed (hwf : sv.WellFormed) (addr : Ipv4Addr) (attached : Bool) :
    (sv.acceptProc addr attached).WellFormed := by
  cases attached with
  | false =>
      exact ⟨hwf.nodup, hwf.named, fun n s h => Nat.lt_succ_of_lt (hwf.sessionOld n s h),
        fun chan p hp => Nat.lt_succ_of_lt (hwf.listedOld chan p hp)⟩
  | true =>
      refine ⟨nodup_put hwf.nodup, fun n s h => ?_, fun n s h => ?_,
        fun chan p hp => Nat.lt_succ_of_lt (hwf.listedOld chan p hp)⟩
      · rw [acceptProc_find] at h
        split at h
        · rename_i hn
          cases h
          exact hn.symm
        · exact hwf.named n s h
      · rw [acceptProc_find] at h
        split at h
        · cases h
          exact Nat.lt_succ_self _
        · exact Nat.lt_succ_of_lt (hwf.sessionOld n s h)

theorem acceptProc_agrees_iff (hwf : sv.WellFormed) (ha : sv.Agrees) (addr : Ipv4Addr) :
    (sv.acceptProc addr true).Agrees ↔
      ∀ sess ∈ find? (SessionPtr.name ⟨addr, sv.nextSessionId⟩) sv.sessions,
        sess.subscribedChannels = [] := by
  refine vacated_agrees_iff hwf ha (fun p chan => ?_) (fun _ => rfl) fun n s h => ?_
  · unfold Subscribed
    rw [acceptProc_find]
    split
    · rename_i hn
      simp [hn]
    · rename_i hn
      simp [hn]
  · rw [acceptProc_find] at h
    split at h
    · cases h
      simp
    · exact ha.mode n s h

end

/-! ## Runs -/

/-- The events that keep the tables in agreement.

- A new connection does not take the name of one that has subscriptions; the
  counter in the name would have to come round for that.
- `subscribe` names each channel once, and none that the session already has.
- `unsubscribe` with arguments names every channel the session has.
- `WriteProc` closes only sessions without subscriptions. -/
def Fits (sv : Server) : Event → Prop
  | .accept addr attached => attached = true →
      ∀ sess ∈ find? (SessionPtr.name ⟨addr, sv.nextSessionId⟩) sv.sessions,
        sess.subscribedChannels = []
  | .subscribe name argv => ∀ sess ∈ find? name sv.sessions,
      (argv.drop 1).Nodup ∧ ∀ c ∈ argv.drop 1, c ∉ sess.subscribedChannels
  | .unsubscribe name argv _ => ∀ sess ∈ find? name sv.sessions,
      2 ≤ argv.length → ∀ c ∈ sess.subscribedChannels, c ∈ argv.drop 1
  | .readClose _ => True
  | .writeClose name => ∀ sess ∈ find? name sv.sessions, sess.subscribedChannels = []

/-- What stands behind a mark that does not occur in front of it. -/
theorem behind_mark {x : UInt8} {a a' b b' : Bytes} (ha : x ∉ a) (ha' : x ∉ a')
    (h : a ++ x :: b = a' ++ x :: b') : b = b' := by
  rcases List.append_eq_append_iff.mp h with ⟨c, rfl, hc⟩ | ⟨c, rfl, hc⟩
  · cases c with
    | nil => exact (List.cons.inj hc).2
    | cons y c =>
        rw [(List.cons.inj hc).1] at ha'
        exact absurd (List.mem_append_right a List.mem_cons_self) ha'
  · cases c with
    | nil => exact (List.cons.inj hc).2.symm
    | cons y c =>
        rw [(List.cons.inj hc).1] at ha
        exact absurd (List.mem_append_right a' List.mem_cons_self) ha

theorem hash_not_mem_addr (addr : Ipv4Addr) : (35 : UInt8) ∉ addr.toBytes := by
  have hdigits : ∀ n, (35 : UInt8) ∉ natToString n := fun n hm =>
    absurd (natToString_all_digit n 35 hm) (by decide)
  simp only [Ipv4Addr.toBytes, List.mem_append, hdigits, false_or, or_false]
  decide

/-- The first 2^31 sessions have different names. -/
theorem name_injective {p q : SessionPtr} (hp : p.id < 2 ^ 31) (hq : q.id < 2 ^ 31)
    (h : p.name = q.name) : p.id = q.id := by
  have hid : ∀ n : Nat, n < 2 ^ 31 → intToString (DList.toInt32 n) = natToString n := by
    intro n hn
    have hn' : DList.toInt32 n = n := by
      unfold DList.toInt32
      omega
    rw [hn', intToString_natCast]
  simp only [SessionPtr.name, hid _ hp, hid _ hq, List.append_assoc] at h
  exact natToString_injective (behind_mark (hash_not_mem_addr _) (hash_not_mem_addr _)
    (List.append_cancel_left h))

/-- Until the counter comes round, every new connection fits. -/
theorem accept_fits {sv : Server} (hwf : sv.WellFormed) (hnext : sv.nextSessionId < 2 ^ 31)
    (addr : Ipv4Addr) (attached : Bool) : sv.Fits (.accept addr attached) := by
  intro _ sess hf
  have hold := hwf.sessionOld _ sess hf
  have hsame : sess.ptr.id = sv.nextSessionId :=
    name_injective (hold.trans hnext) hnext (hwf.named _ sess hf)
  omega

theorem subscribe_step {sv : Server} {name : Bytes} {sess : Session}
    (hf : find? name sv.sessions = some sess) (argv : List Bytes) :
    sv.step (.subscribe name argv) = (argv.drop 1).foldl (subscribeTo name) sv := by
  simp only [step, hf, Option.isSome_some, if_true, pubSubSubscribeCommand]
  split
  · exact fst_eachChannel _ _ _ _ _
  · rename_i hsyn
    have hlen : argv.length ≤ 1 := by
      simp [checkSyntax] at hsyn
      omega
    rw [List.drop_eq_nil_of_le hlen]
    rfl

/-- Without arguments all channels of the session go. -/
theorem mem_channelsOf {sv : Server} {name : Bytes} {sess : Session}
    (hf : find? name sv.sessions = some sess) {argv : List Bytes} (hlen : ¬ 2 ≤ argv.length)
    (order : List Bytes) (c : Bytes) :
    c ∈ sv.channelsOf name argv order ↔ c ∈ sess.subscribedChannels := by
  rw [channelsOf, if_neg hlen, hf]
  dsimp only
  split
  · rename_i hperm
    exact (List.isPerm_iff.mp hperm).mem_iff
  · rfl

theorem unsubscribe_step {sv : Server} {name : Bytes} {sess : Session}
    (hf : find? name sv.sessions = some sess) (argv order : List Bytes) :
    sv.step (.unsubscribe name argv order) = if argv = [] then sv
      else (sv.channelsOf name argv order).foldl (unsubscribeFrom name) sv := by
  simp only [step, hf, Option.isSome_some, if_true, pubSubUnsubscribeCommand]
  cases argv with
  | nil => rfl
  | cons w args =>
      have hsyn : checkSyntax (w :: args) (-2) (-1) false = true := by simp [checkSyntax]
      rw [if_pos hsyn, if_neg (List.cons_ne_nil w args)]
      split
      · rename_i hnil
        rw [List.isEmpty_iff.mp hnil]
        rfl
      · exact fst_eachChannel _ _ _ _ _

theorem step_wellFormed {sv : Server} (hwf : sv.WellFormed) (ha : sv.Agrees) (e : Event) :
    (sv.step e).WellFormed := by
  cases e with
  | accept addr attached => exact acceptProc_wellFormed hwf addr attached
  | subscribe name argv =>
      cases hf : find? name sv.sessions with
      | none => simpa only [step, hf, Option.isSome_none, Bool.false_eq_true, if_false] using hwf
      | some sess =>
          rw [subscribe_step hf]
          exact subscribe_wellFormed hwf hf _
  | unsubscribe name argv order =>
      cases hf : find? name sv.sessions with
      | none => simpa only [step, hf, Option.isSome_none, Bool.false_eq_true, if_false] using hwf
      | some sess =>
          rw [unsubscribe_step hf]
          split
          · exact hwf
          · exact unsubscribe_wellFormed hwf hf _
  | readClose name => exact (readClose_keeps hwf ha name).1
  | writeClose name => exact writeClose_wellFormed hwf name

/-- **From tables that agree an event leads to tables that agree exactly when it
fits.** -/
theorem step_agrees_iff {sv : Server} (hwf : sv.WellFormed) (ha : sv.Agrees) (e : Event) :
    (sv.step e).Agrees ↔ sv.Fits e := by
  cases e with
  | accept addr attached =>
      cases attached with
      | false => exact ⟨(fun _ h => nomatch h), fun _ => ⟨ha.once, ha.only, ha.mode⟩⟩
      | true =>
          rw [step, acceptProc_agrees_iff hwf ha, Fits]
          simp only [forall_const]
  | subscribe name argv =>
      cases hf : find? name sv.sessions with
      | none => simpa [step, Fits, hf] using ha
      | some sess =>
          rw [subscribe_step hf, subscribe_agrees_iff hwf ha hf, Fits, hf]
          simp only [Option.mem_some_iff, forall_eq']
  | unsubscribe name argv order =>
      cases hf : find? name sv.sessions with
      | none => simpa [step, Fits, hf] using ha
      | some sess =>
          rw [unsubscribe_step hf, Fits, hf]
          simp only [Option.mem_some_iff, forall_eq']
          by_cases hlen : 2 ≤ argv.length
          · have hne : argv ≠ [] := List.ne_nil_of_length_pos (by omega)
            have hargs : argv.drop 1 ≠ [] := by
              refine List.ne_nil_of_length_pos ?_
              rw [List.length_drop]
              omega
            rw [if_neg hne, channelsOf, if_pos hlen, unsubscribe_agrees_iff hwf ha hf]
            simp only [hargs, hlen, ne_eq, not_false_eq_true, forall_const]
          · simp only [hlen, IsEmpty.forall_iff, iff_true]
            split
            · exact ha
            · exact (unsubscribe_agrees_iff hwf ha hf _).mpr fun _ c hc =>
                (mem_channelsOf hf hlen order c).mpr hc
  | readClose name => exact ⟨fun _ => trivial, fun _ => (readClose_keeps hwf ha name).2⟩
  | writeClose name => exact writeClose_agrees_iff hwf ha name

/-! ## Publishing -/

/-- `publish` writes the message to each current subscriber once, and to nobody
else. -/
def Delivers (sv : Server) : Prop :=
  ∀ (wrote : SessionPtr → Bool) (w chan message : Bytes),
    (∀ p, sv.Subscribed p chan → (sv.pubSubPublishCommand wrote [w, chan, message]).1.count
      (p, packPublishMessage chan message) = 1) ∧
    ∀ written ∈ (sv.pubSubPublishCommand wrote [w, chan, message]).1,
      sv.Subscribed written.1 chan ∧ written.2 = packPublishMessage chan message

theorem publish_writes (sv : Server) (wrote : SessionPtr → Bool) (w chan message : Bytes) :
    (sv.pubSubPublishCommand wrote [w, chan, message]).1
      = (sv.getSubscriptionSessions chan).map fun p => (p, packPublishMessage chan message) := by
  have hsyn : checkSyntax [w, chan, message] 1 1 false = true := rfl
  rw [pubSubPublishCommand, if_pos hsyn]
  cases hf : find? chan sv.subscriptionSessions with
  | none =>
      have hno : ¬ sv.hasSubscriptionChannel (arg [w, chan, message] 1) = true := by
        change ¬ (find? chan sv.subscriptionSessions).isSome = true
        rw [hf]
        exact Bool.false_ne_true
      rw [if_neg hno, getSubscriptionSessions, hf]
      rfl
  | some l =>
      have hyes : sv.hasSubscriptionChannel (arg [w, chan, message] 1) = true := by
        change (find? chan sv.subscriptionSessions).isSome = true
        rw [hf]
        rfl
      rw [if_pos hyes]
      rfl

theorem Agrees.delivers {sv : Server} (ha : sv.Agrees) : sv.Delivers := by
  intro wrote w chan message
  rw [publish_writes]
  have hinj : Function.Injective fun p : SessionPtr => (p, packPublishMessage chan message) :=
    fun p q h => (Prod.mk.inj h).1
  refine ⟨fun p hp => ?_, fun written hw => ?_⟩
  · exact (List.count_map_of_injective _ _ hinj p).trans (ha.once chan p hp)
  · obtain ⟨p, hp, rfl⟩ := List.mem_map.mp hw
    exact ⟨ha.only chan p hp, rfl⟩

/-- **The tables agree in every state of a run, and every message goes to each
subscriber once and to nobody else, exactly when every event of the run fits.** -/
theorem agrees_iff (events : List Event) :
    (∀ pre post, events = pre ++ post → (run new pre).Agrees ∧ (run new pre).Delivers) ↔
      Lib.Run.Guarded step Fits new events := by
  have hok : ∀ (sv : Server) (e : Event), sv.WellFormed → sv.Agrees →
      ((sv.step e).Agrees ↔ sv.Fits e) := fun sv e hwf ha => step_agrees_iff hwf ha e
  have hinv : ∀ (sv : Server) (e : Event), sv.WellFormed → sv.Agrees → (sv.step e).WellFormed :=
    fun sv e hwf ha => step_wellFormed hwf ha e
  rw [← Lib.Run.guarded_iff hok hinv events new wellFormed_new agrees_new]
  constructor
  · intro hall pre post h
    exact (hall pre post h).1
  · intro hall pre post h
    exact ⟨hall pre post h, (hall pre post h).delivers⟩

/-- A client, and the name of its session when it is the first. -/
def client : Ipv4Addr := ⟨127, 0, 0, 1, 5000⟩

/-- See `client`. -/
def clientName : Bytes := SessionPtr.name ⟨client, 1⟩

/-- A channel named twice; one of two channels given up; a close in `WriteProc`. -/
theorem tables_disagree :
    ¬ (run new [.accept client true,
      .subscribe clientName [ascii "subscribe", ascii "c", ascii "c"]]).Agrees ∧
    ¬ (run new [.accept client true,
      .subscribe clientName [ascii "subscribe", ascii "c", ascii "c"]]).Delivers ∧
    ¬ (run new [.accept client true,
      .subscribe clientName [ascii "subscribe", ascii "c", ascii "d"],
      .unsubscribe clientName [ascii "unsubscribe", ascii "c"] []]).Agrees ∧
    ¬ (run new [.accept client true,
      .subscribe clientName [ascii "subscribe", ascii "c"], .writeClose clientName]).Agrees := by
  have hsub : (run new [.accept client true,
      .subscribe clientName [ascii "subscribe", ascii "c", ascii "c"]]).Subscribed ⟨client, 1⟩
        (ascii "c") := ⟨⟨⟨client, 1⟩, true, [ascii "c"]⟩, by decide +kernel, rfl, by decide⟩
  refine ⟨fun h => ?_, fun h => ?_, fun h => ?_, fun h => ?_⟩
  · exact absurd (h.once _ _ hsub) (by decide +kernel)
  · exact absurd ((h (fun _ => true) (ascii "publish") (ascii "c") (ascii "m")).1 _ hsub)
      (by decide +kernel)
  · exact absurd ((h.mode clientName ⟨⟨client, 1⟩, false, [ascii "d"]⟩ (by decide +kernel)).mpr
      (by decide)) (by decide)
  · obtain ⟨sess, hf, -⟩ := h.only (ascii "c") ⟨client, 1⟩ (by decide +kernel)
    have hnone : find? clientName (run new [.accept client true,
        .subscribe clientName [ascii "subscribe", ascii "c"],
        .writeClose clientName]).sessions = none := by decide +kernel
    exact absurd (hnone.symm.trans hf) (Option.some_ne_none sess).symm

end LiteKV.Server
