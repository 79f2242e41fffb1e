/-
LiteKV.Net.TimerTheorems — expirations and the keys they were set on.

The handlers' `sExpiresMap` and the event list go in step whatever happens:
entry for entry, the map leads to the events of the list (`Paired`). The
STORE does not follow them. `del`, both evictions and `expire` with 0 take a
key out and leave its expiration behind, and a timer that fires for one
spelling of a key leaves the expirations of its other spellings.

`Engine.Fits` is the condition under which an event does neither, and the
runs whose events all fit are exactly those in which every expiration
belongs to a key that has been in the store since it was set
(`expirations_belong_iff`).
-/
import LiteKV.EvictionTheorems
import LiteKV.ExpirationTheorems
import LiteKV.Lib.Run
import LiteKV.Net.FiringTheorems
import LiteKV.Net.FrameTheorems
import LiteKV.Net.ReplayTheorems

namespace LiteKV

open Lib Lib.AssocList Lib.Run

/-! ## The map and the event list -/

/-- The entry of `sExpiresMap` that leads to an event of `ExpireCommand`. -/
def TimeEvent.entry (ev : TimeEvent) : Bytes × Nat :=
  match ev.callback with
  | .byValue key => (key, ev.id)
  | .byReference => ([], ev.id)

theorem TimeEvent.entry_snd (ev : TimeEvent) : ev.entry.2 = ev.id := by
  unfold entry
  cases ev.callback <;> rfl

/-- An event of `ExpireCommand` that has not fired. -/
structure TimeEvent.Armed (ev : TimeEvent) : Prop where
  callback : ev.callback = .byValue ev.entry.1
  count : ev.count = 1

/-- The map leads to the events of the list, and all of them are armed. -/
structure Engine.Paired (s : Engine) : Prop where
  ok : s.Ok
  entries : s.expires = s.tev.eventList.map TimeEvent.entry
  armed : ∀ ev ∈ s.tev.eventList, ev.Armed

theorem paired_new : Engine.new.Paired :=
  ⟨Engine.ok_new, rfl, fun _ hev => absurd hev List.not_mem_nil⟩

namespace Engine.Paired

variable {s : Engine} (hs : s.Paired)

include hs

theorem words : keys s.expires = s.tev.eventList.map fun ev => ev.entry.1 := by
  rw [hs.entries, keys, List.map_map]
  rfl

theorem ids : s.expires.map Prod.snd = s.tev.eventList.map TimeEvent.id := by
  rw [hs.entries, List.map_map]
  exact List.map_congr_left fun ev _ => ev.entry_snd

theorem eventIds : (s.tev.eventList.map TimeEvent.id).Nodup := by
  rw [← hs.ids]
  exact hs.ok.2.idsNodup

theorem counts : ∀ ev ∈ s.tev.eventList, ev.count ≠ 0 := by
  intro ev hev
  rw [(hs.armed ev hev).count]
  decide

/-- An event's word finds the event. -/
theorem find {ev : TimeEvent} (hev : ev ∈ s.tev.eventList) :
    AssocList.find? ev.entry.1 s.expires = some ev.id := by
  refine find?_of_mem hs.ok.2.keysNodup ?_
  rw [hs.entries, ← ev.entry_snd]
  exact List.mem_map_of_mem hev

theorem deref {ev : TimeEvent} (hev : ev ∈ s.tev.eventList) : s.tev.deref ev.id = some ev := by
  obtain ⟨ev', hev'⟩ := Option.isSome_iff_exists.mp (hs.ok.2.deref (hs.find hev))
  have hid : ev'.id = ev.id := by simpa using List.find?_some hev'
  rw [hev', List.inj_on_of_nodup_map hs.eventIds (List.mem_of_find?_eq_some hev') hev hid]

/-- A word of the map has an event in the list. -/
theorem event {w : Bytes} {id : Nat} (h : (w, id) ∈ s.expires) :
    ∃ ev ∈ s.tev.eventList, s.tev.deref id = some ev ∧ ev.callback = .byValue w := by
  rw [hs.entries] at h
  obtain ⟨ev, hev, heq⟩ := List.mem_map.mp h
  have hid : ev.id = id := by rw [← ev.entry_snd, heq]
  refine ⟨ev, hev, by rw [← hid, hs.deref hev], ?_⟩
  rw [(hs.armed ev hev).callback, heq]

/-- What keeps some of the events, and their entries, keeps the pairing. -/
theorem shrink {s' : Engine} (hok : s'.holder.Ok)
    (hsub : s'.tev.eventList.Sublist s.tev.eventList)
    (hnext : s'.tev.timeEventId = s.tev.timeEventId)
    (hent : s'.expires = s'.tev.eventList.map TimeEvent.entry) : s'.Paired := by
  have hexp : s'.expires.Sublist s.expires := by
    rw [hent, hs.entries]
    exact hsub.map _
  refine ⟨⟨hok, ?_, ?_, ?_, ?_⟩, hent, fun ev hev => hs.armed ev (hsub.subset hev)⟩
  · exact hs.ok.2.keysNodup.sublist (hexp.map _)
  · exact hs.ok.2.idsNodup.sublist (hexp.map _)
  · intro e he
    rw [hent] at he
    obtain ⟨ev, hev, rfl⟩ := List.mem_map.mp he
    rw [ev.entry_snd]
    exact List.mem_map_of_mem hev
  · intro ev hev
    rw [hnext]
    exact hs.ok.2.fresh ev (hsub.subset hev)

/-- So does what leaves both alone. -/
theorem of_same {s' : Engine} (hok : s'.holder.Ok) (hexp : s'.expires = s.expires)
    (htev : s'.tev = s.tev) : s'.Paired := by
  refine hs.shrink hok ?_ (congrArg _ htev) ?_
  · rw [htev]
  · rw [hexp, htev, hs.entries]

end Engine.Paired

/-! ## `expire` keeps them paired -/

theorem updateTimeEvent_paired {s : Engine} (hs : s.Paired) {now id interval : Nat}
    {tev : TimeEventHolder} (h : s.tev.updateTimeEvent now id interval 1 = (tev, true)) :
    s.expires = tev.eventList.map TimeEvent.entry ∧ ∀ ev ∈ tev.eventList, ev.Armed := by
  have htev := TimeEventHolder.updateTimeEvent_list s.tev now id interval 1
  rw [h] at htev
  dsimp only at htev
  rw [htev]
  constructor
  · rw [hs.entries, List.map_map]
    refine List.map_congr_left fun ev _ => ?_
    rw [Function.comp_apply]
    split <;> rfl
  · intro ev hev
    obtain ⟨ev₀, hev₀, rfl⟩ := List.mem_map.mp hev
    have harm := hs.armed ev₀ hev₀
    split
    · exact ⟨harm.callback, rfl⟩
    · exact harm

theorem removeTimeEvent_paired {s : Engine} (hs : s.Paired) {key : Bytes} {id : Nat}
    (hf : AssocList.find? key s.expires = some id) {tev : TimeEventHolder}
    (h : s.tev.removeTimeEvent id = (tev, true)) :
    { s with tev := tev, expires := erase key s.expires : Engine }.Paired := by
  have htev := TimeEventHolder.removeTimeEvent_list hs.eventIds id
  rw [h] at htev
  dsimp only at htev
  rw [htev]
  refine hs.shrink hs.ok.1 List.filter_sublist rfl ?_
  -- an event of the list has this word exactly when it has this id
  have hsame : ∀ ev ∈ s.tev.eventList, decide (ev.entry.1 ≠ key) = decide (ev.id ≠ id) := by
    intro ev hev
    refine decide_eq_decide.mpr (not_congr ⟨fun hw => ?_, fun hid => ?_⟩)
    · have hfind := hs.find hev
      rw [hw, hf] at hfind
      exact (Option.some.inj hfind).symm
    · obtain ⟨ev', hev', hd', hcb⟩ := hs.event (mem_of_find? hf)
      rw [← hid, hs.deref hev] at hd'
      cases hd'
      rw [(hs.armed ev hev).callback] at hcb
      exact Callback.byValue.inj hcb
  dsimp only
  rw [erase_eq_filter hs.ok.2.keysNodup]
  nth_rewrite 1 [hs.entries]
  rw [List.filter_map]
  exact congrArg _ (List.filter_congr hsame)

theorem setExpiration_paired {s s' : Engine} (hs : s.Paired) {ctx : Ctx} {key : Bytes}
    {interval : Int64} (h : s.setExpiration ctx key interval = some s') : s'.Paired := by
  obtain ⟨s₁, hs₁, hok, -⟩ := setExpiration_spec hs.ok ctx key interval
  obtain rfl : s₁ = s' := Option.some.inj (hs₁.symm.trans h)
  cases setsExpiration h with
  | create hf hpos =>
      refine ⟨hok, ?_, ?_⟩
      · rw [hs.entries]
        rfl
      · intro ev hev
        rcases List.mem_cons.mp hev with rfl | hev
        · exact ⟨rfl, rfl⟩
        · exact hs.armed ev hev
  | delete => exact hs.of_same hok.1 rfl rfl
  | nothing => exact hs
  | update hf hge ht =>
      obtain ⟨hent, harm⟩ := updateTimeEvent_paired hs ht
      exact ⟨hok, hent, harm⟩
  | remove hf hneg ht => exact removeTimeEvent_paired hs hf ht

/-! ## A turn of the timers -/

/-- The words of the map whose deadline has come. -/
def Engine.due (s : Engine) (now : Nat) : List Bytes :=
  (keys s.expires).filter fun w => (s.deadline w).any fun d => d ≤ now

theorem Engine.Paired.due_eq {s : Engine} (hs : s.Paired) (now : Nat) :
    s.due now = (s.tev.eventList.filter fun ev => ev.when ≤ now).map fun ev => ev.entry.1 := by
  rw [Engine.due, hs.words, List.filter_map]
  refine congrArg _ (List.filter_congr fun ev hev => ?_)
  rw [Function.comp_apply, Engine.deadline, hs.find hev, Option.bind_some, hs.deref hev]
  rfl

/-- An armed event goes when it is due. -/
theorem TimeEvent.Armed.left {ev : TimeEvent} (h : ev.Armed) (now later : Nat) :
    ev.left now later = if now < ev.when then some ev else none := by
  unfold TimeEvent.left
  rw [h.count]
  by_cases hd : ev.when ≤ now
  · simp [hd, Nat.not_lt.mpr hd]
  · simp [hd, Nat.lt_of_not_le hd]

theorem Engine.Paired.fired {s : Engine} (hs : s.Paired) (now : Nat) :
    s.tev.handleFiredTimeEvent now
      = (⟨s.tev.eventList.filter fun ev => now < ev.when, s.tev.timeEventId⟩,
          (s.due now).map .byValue) := by
  have hleft : (s.tev.eventList.filterMap fun ev => ev.left now now)
      = s.tev.eventList.filter fun ev => now < ev.when := by
    rw [← List.filterMap_eq_filter]
    refine List.filterMap_congr fun ev hev => ?_
    rw [(hs.armed ev hev).left]
    simp [Option.guard]
  have hcalled : (s.tev.eventList.filter fun ev => ev.when ≤ now).map TimeEvent.callback
      = (s.due now).map .byValue := by
    rw [hs.due_eq, List.map_map]
    exact List.map_congr_left fun ev hev => (hs.armed ev (List.mem_filter.mp hev).1).callback
  rw [TimeEventHolder.handleFiredTimeEvent_eq, TimeEventHolder.firedLoop_eq _ _ hs.counts, hleft,
    hcalled]

/-- Callbacks delete their keys and erase their words, and do nothing else to
the two. -/
theorem runCallbacks_spec (stale : Bytes) (ws : List Bytes) : ∀ {s : Engine}, s.holder.Ok →
    (keys s.expires).Nodup →
    let s' := (ws.map Callback.byValue).foldl (Engine.runCallback stale) s
    s'.holder.Ok ∧ s'.tev = s.tev ∧ (s'.expires = s.expires.filter fun e => e.1 ∉ ws) ∧
      ∀ k, s'.holder.find k = if k ∈ ws.map .ofStdString then none else s.holder.find k := by
  induction ws with
  | nil =>
    intro s hok _
    exact ⟨hok, rfl, by simp, fun k => by simp⟩
  | cons w ws ih =>
    intro s hok hn
    obtain ⟨hdel, -, hfind⟩ := KVContainer.delete_spec hok (.ofStdString w)
    obtain ⟨hok', htev, hexp, hfind'⟩ :=
      ih (s := Engine.runCallback stale s (.byValue w)) hdel (nodup_erase hn)
    refine ⟨hok', htev, ?_, fun k => ?_⟩
    · rw [List.map_cons, List.foldl_cons, hexp]
      show (erase w s.expires).filter _ = _
      rw [erase_eq_filter hn, List.filter_filter]
      refine List.filter_congr fun e _ => ?_
      rw [← Bool.decide_and]
      refine decide_eq_decide.mpr ?_
      rw [List.mem_cons, not_or, and_comm]
    · rw [List.map_cons, List.foldl_cons, hfind']
      show (if _ then none else (s.holder.delete (.ofStdString w)).1.find k) = _
      rw [hfind, List.map_cons]
      by_cases hk : k = .ofStdString w
      · simp [hk]
      · simp [hk]

/-- A turn of the timers deletes the keys that are due and ends their
expirations, and leaves all others alone. -/
theorem handleFired_spec {s : Engine} (hs : s.Paired) (now : Nat) (stale : Bytes) :
    let s' := s.handleFiredTimeEvent now stale
    s'.Paired ∧ (∀ w, w ∈ keys s'.expires ↔ w ∈ keys s.expires ∧ w ∉ s.due now) ∧
      ∀ k, s'.holder.find k
        = if k ∈ (s.due now).map .ofStdString then none else s.holder.find k := by
  obtain ⟨hok, htev, hexp, hfind⟩ := runCallbacks_spec stale (s.due now)
    (s := { s with tev := (s.tev.handleFiredTimeEvent now).1 }) hs.ok.1 hs.ok.2.keysNodup
  have hfold : s.handleFiredTimeEvent now stale
      = ((s.due now).map Callback.byValue).foldl (Engine.runCallback stale)
          { s with tev := (s.tev.handleFiredTimeEvent now).1 } := by
    rw [Engine.handleFiredTimeEvent, hs.fired]
  rw [hfold]
  refine ⟨?_, fun w => ?_, hfind⟩
  · have hleft : (s.tev.handleFiredTimeEvent now).1.eventList
        = s.tev.eventList.filter fun ev => now < ev.when := by rw [hs.fired]
    refine hs.shrink hok ?_ (by rw [htev, hs.fired]) ?_
    · rw [htev, hleft]
      exact List.filter_sublist
    · rw [htev, hexp, hleft]
      dsimp only
      nth_rewrite 1 [hs.entries]
      rw [List.filter_map]
      refine congrArg _ (List.filter_congr fun ev hev => decide_eq_decide.mpr ?_)
      rw [Engine.due, List.mem_filter, Engine.deadline, hs.find hev, Option.bind_some, hs.deref hev]
      have hmem : ev.entry.1 ∈ keys s.expires := by
        rw [hs.words]
        exact List.mem_map_of_mem hev
      simp [hmem]
  · rw [hexp, keys, keys]
    simp only [List.mem_map, List.mem_filter, decide_eq_true_eq]
    constructor
    · rintro ⟨e, ⟨he, hdue⟩, rfl⟩
      exact ⟨⟨e, he, rfl⟩, hdue⟩
    · rintro ⟨⟨e, he, rfl⟩, hdue⟩
      exact ⟨e, ⟨he, hdue⟩, rfl⟩

/-! ## What a command takes out -/

/-- The keys of `gone` are not there any more, and no other key has gone. -/
structure KVContainer.Loses (h : KVContainer) (gone : List Key) (h' : KVContainer) : Prop where
  ok : h'.Ok
  lost : ∀ k ∈ gone, h'.keyExists k = false
  stay : ∀ k, k ∉ gone → h.keyExists k = true → h'.keyExists k = true

theorem KVContainer.Loses.of_view {h h' : KVContainer} {gone : List Key} (hok : h'.Ok)
    (hview : h'.view = fun k => if k ∈ gone then none else h.view k) : h.Loses gone h' := by
  refine ⟨hok, fun k hk => ?_, fun k hk hex => ?_⟩
  · rw [keyExists_eq, hview]
    simp [hk]
  · rw [keyExists_eq, hview]
    simpa [hk, ← keyExists_eq] using hex

namespace Engine

/-- The keys the lazy eviction in front of a command takes. -/
def lazyVictims (s : Engine) (ctx : Ctx) : List Key :=
  match ctx.pressure with
  | none => []
  | some env => s.holder.victims ctx.policy 16 env

/-- `expire` with 0 deletes a key at once, unless the map has the word. -/
def deletesAtOnce (s : Engine) (word : Bytes) (interval : Option Int64) : List Key :=
  if interval = some 0 ∧ word ∉ keys s.expires then [.ofStdString word] else []

/-- The keys a handler takes out of the store, for the words of its command. -/
def takesOut (s : Engine) (ctx : Ctx) (argv : List Bytes) : Opcode → List Key
  | .del => (argv.drop 1).map .ofStdString
  | .evict =>
      if argv.length = 2 then
        match canConvertToUInt64 (arg argv 1) with
        | none => []
        | some n => s.holder.victims ctx.policy n ctx.evict
      else []
  | .expire =>
      if argv.length = 3 then s.deletesAtOnce (arg argv 1) (canConvertToInt64 (arg argv 2)) else []
  | .expireat =>
      if argv.length = 3 then
        s.deletesAtOnce (arg argv 1) ((canConvertToInt64 (arg argv 2)).map (expireInterval ctx))
      else []
  | _ => []

end Engine

/-- The commands that set an expiration. -/
def Opcode.expires : Opcode → Bool
  | .expire | .expireat => true
  | _ => false

/-- What a handler does to the store and to the expirations: it takes out
`gone`, and then neither ends nor starts an expiration; it ends one on a key
that is there; it starts one on its own key, which is there, and answers 1. -/
structure Handled (s : Engine) (op : Opcode) (argv : List Bytes) (gone : List Key)
    (r : Engine × Reply) : Prop where
  paired : r.1.Paired
  loses : s.holder.Loses gone r.1.holder
  ends : ∀ w ∈ keys s.expires, w ∉ keys r.1.expires →
    gone = [] ∧ s.holder.keyExists (.ofStdString w) = true
  starts : ∀ w ∈ keys r.1.expires, w ∉ keys s.expires →
    gone = [] ∧ op.expires = true ∧ arg argv 1 = w ∧ r.2 = .ok kInt1Msg
  found : op.expires = true → r.2 = .ok kInt1Msg → s.holder.keyExists (keyOf argv) = true

section

variable {s : Engine} (hs : s.Paired) {ctx : Ctx} {op : Opcode} {argv : List Bytes}

include hs

/-- A handler that leaves the expirations alone. -/
theorem Handled.of_same {gone : List Key} {r : Engine × Reply} (hexp : r.1.expires = s.expires)
    (htev : r.1.tev = s.tev) (hloses : s.holder.Loses gone r.1.holder)
    (hfound : op.expires = true → r.2 = .ok kInt1Msg → s.holder.keyExists (keyOf argv) = true) :
    Handled s op argv gone r := by
  refine ⟨hs.of_same hloses.ok hexp htev, hloses, ?_, ?_, hfound⟩
  · intro w hw hnot
    rw [hexp] at hnot
    exact absurd hw hnot
  · intro w hw hnot
    rw [hexp] at hw
    exact absurd hw hnot

/-- A handler that does nothing. -/
theorem Handled.refused {r : Engine × Reply} (hsame : r.1 = s)
    (hreply : op.expires = true → r.2 ≠ .ok kInt1Msg) : Handled s op argv [] r := by
  have hloses : s.holder.Loses [] s.holder := .of_view hs.ok.1 (by simp)
  rw [← hsame] at hloses hs ⊢
  exact .of_same hs rfl rfl hloses fun hop h => absurd h (hreply hop)

theorem handled_single (hop : op.single = true) : Handled s op argv [] (op.handler ctx s argv) := by
  have ha : Affects ctx s argv _ _ := handler_affects hs.ok.1 op hop
  have hstep : s.StepsTo argv (op.handler ctx s argv).1 := handler_stepsTo op hop
  obtain ⟨hok, -, hstay⟩ := hstep.frame hs.ok.1 (keyOf_clean argv)
  have hexpires : op.expires = false := by
    cases op <;> first | rfl | cases hop
  refine .of_same hs ((congrArg Engine.expires ha.rest).trans rfl)
    ((congrArg Engine.tev ha.rest).trans rfl) ⟨hok, ?_, fun k _ hk => hstay k hk⟩ ?_
  · intro k hk
    cases hk
  · intro h
    rw [hexpires] at h
    cases h

theorem handled_del :
    Handled s .del argv ((argv.drop 1).map .ofStdString) (delCommand ctx s argv) := by
  unfold delCommand checkSyntaxHelper
  split
  · obtain ⟨hok, hview⟩ := KVContainer.deleteAll_spec hs.ok.1 (argv.drop 1)
    have hloses := KVContainer.Loses.of_view hok hview
    unfold Engine.addIntoAppendable
    split <;> exact .of_same hs rfl rfl hloses fun h => absurd h (by decide)
  · rename_i hsyn
    have hnil : argv.drop 1 = [] := by
      refine List.drop_eq_nil_of_le ?_
      simpa [checkSyntax, Nat.lt_succ_iff] using hsyn
    rw [hnil]
    exact .refused hs rfl fun h => absurd h (by decide)

theorem handled_evict :
    Handled s .evict argv (s.takesOut ctx argv .evict) (evictCommand ctx s argv) := by
  have hsyn : checkSyntax argv 1 0 false = true ↔ argv.length = 2 := checkSyntax_operands argv 0
  unfold evictCommand checkSyntaxHelper Engine.takesOut
  simp only [hsyn]
  split
  · cases canConvertToUInt64 (arg argv 1) with
    | none => exact .refused hs rfl fun h => absurd h (by decide)
    | some n =>
        have hrem := KVContainer.keyEviction_victims hs.ok.1 ctx.policy n ctx.evict
        have hloses := KVContainer.Loses.of_view hrem.ok hrem.view
        unfold Engine.addIntoAppendable
        dsimp only
        cases ctx.sync <;> exact .of_same hs rfl rfl hloses fun h => absurd h (by decide)
  · exact .refused hs rfl fun h => absurd h (by decide)

omit hs in
theorem logExpiration_eq (s : Engine) (ctx : Ctx) (key : Bytes) (interval : Int64) :
    ∃ log, s.logExpiration ctx key interval = { s with log := log } := by
  unfold Engine.logExpiration Engine.addIntoAppendable
  split
  · split
    · exact ⟨_, rfl⟩
    · exact ⟨s.log, rfl⟩
  · split
    · exact ⟨s.log, rfl⟩
    · split
      · exact ⟨_, rfl⟩
      · exact ⟨s.log, rfl⟩

omit hs in
theorem deletesAtOnce_eq_nil {word : Bytes} {interval : Int64}
    (h : interval.toInt ≠ 0 ∨ word ∈ keys s.expires) :
    s.deletesAtOnce word (some interval) = [] := by
  refine if_neg fun hnow => ?_
  rcases h with h | h
  · rw [Option.some.inj hnow.1] at h
    exact h rfl
  · exact hnow.2 h

/-- An expiration that is set on a key of the store. -/
theorem Engine.SetsExpiration.handled (hop : op.expires = true)
    (hex : s.holder.keyExists (keyOf argv) = true) {interval : Int64} {s' : Engine}
    (hset : s.setExpiration ctx (arg argv 1) interval = some s') :
    Handled s op argv (s.deletesAtOnce (arg argv 1) (some interval)) (s', .ok kInt1Msg) := by
  have hpaired := setExpiration_paired hs hset
  have hself : s.holder.Loses [] s.holder := .of_view hs.ok.1 (by simp)
  cases setsExpiration hset with
  | create hf hpos =>
      rw [deletesAtOnce_eq_nil (Or.inl (by omega))]
      refine ⟨hpaired, hself, ?_, ?_, fun _ _ => hex⟩
      · intro w hw hnot
        exact absurd (List.mem_cons_of_mem _ hw) hnot
      · intro w hw hnot
        rcases List.mem_cons.mp hw with hw | hw
        · exact ⟨rfl, hop, hw.symm, rfl⟩
        · exact absurd hw hnot
  | delete hf hzero =>
      have hinterval : interval = 0 := Int64.toInt_inj.mp hzero
      have hgone : s.deletesAtOnce (arg argv 1) (some interval) = [keyOf argv] :=
        if_pos ⟨by rw [hinterval], find?_eq_none.mp hf⟩
      rw [hgone]
      obtain ⟨hok, hview⟩ := KVContainer.delete_acts hs.ok.1 (keyOf argv)
      refine .of_same hs rfl rfl (.of_view hok (hview.trans ?_)) fun _ _ => hex
      funext k
      simp only [Function.update_apply, List.mem_singleton]
  | nothing hf hneg =>
      rw [deletesAtOnce_eq_nil (Or.inl (by omega))]
      exact .of_same hs rfl rfl hself fun _ _ => hex
  | update hf hge ht =>
      rw [deletesAtOnce_eq_nil (Or.inr (find?_isSome.mp (by rw [hf]; rfl)))]
      exact ⟨hpaired, hself, fun w hw hnot => absurd hw hnot, fun w hw hnot => absurd hw hnot,
        fun _ _ => hex⟩
  | remove hf hneg ht =>
      rw [deletesAtOnce_eq_nil (Or.inl (by omega))]
      refine ⟨hpaired, hself, ?_, ?_, fun _ _ => hex⟩
      · intro w hw hnot
        have hword : w = arg argv 1 := by
          by_contra hne
          exact hnot ((mem_keys_erase hs.ok.2.keysNodup).mpr ⟨hne, hw⟩)
        exact ⟨rfl, by rw [hword]; exact hex⟩
      · intro w hw hnot
        exact absurd ((mem_keys_erase hs.ok.2.keysNodup).mp hw).2 hnot

theorem handled_expire (hop : op.expires = true) :
    Handled s op argv
      (if argv.length = 3 then s.deletesAtOnce (arg argv 1) (canConvertToInt64 (arg argv 2))
        else [])
      (expireCommand ctx s argv) := by
  obtain ⟨hsame, hreply, hnot⟩ | ⟨interval, s', hexp, heq⟩ := expireCommand_cases s ctx argv
  · -- a refused `expire ... 0` names a key that is not there
    refine .of_same hs (by rw [hsame]) (by rw [hsame]) ?_ fun _ h => absurd h hreply
    rw [hsame]
    refine ⟨hs.ok.1, fun k hk => ?_, fun k _ hk => hk⟩
    split at hk
    · rename_i hlen
      unfold Engine.deletesAtOnce at hk
      split at hk
      · rename_i hzero
        rw [List.mem_singleton.mp hk, Bool.eq_false_iff]
        intro hex
        obtain ⟨s', hset, -⟩ := setExpiration_spec hs.ok ctx (arg argv 1) 0
        exact hnot 0 s' ⟨hlen, hex, hzero.1, hset⟩
      · cases hk
    · cases hk
  · rw [if_pos hexp.length, hexp.number, heq]
    obtain ⟨log, hlog⟩ := logExpiration_eq s' ctx (arg argv 1) interval
    have h := Engine.SetsExpiration.handled hs hop hexp.exists_ hexp.set
    rw [hlog]
    exact ⟨h.paired.of_same h.loses.ok rfl rfl, h.loses, h.ends, h.starts, h.found⟩

theorem handled_expireat : Handled s .expireat argv (s.takesOut ctx argv .expireat)
    (expireAtCommand ctx s argv) := by
  have hsyn : checkSyntax argv 1 1 false = true ↔ argv.length = 3 := checkSyntax_operands argv 1
  have hwords : (Except.ok (syntaxErrMsg "expireat") : Reply) ≠ .ok kInt1Msg := by decide
  have hinvalid : (Except.ok kInvalidIntegerMsg : Reply) ≠ .ok kInt1Msg := by decide
  unfold expireAtCommand checkSyntaxHelper Engine.takesOut
  simp only [hsyn]
  split
  · cases canConvertToInt64 (arg argv 2) with
    | none =>
        have hnil : s.deletesAtOnce (arg argv 1) (Option.map (expireInterval ctx) none) = [] :=
          if_neg fun h => absurd h.1 (by simp)
        rw [hnil]
        exact .refused hs rfl fun _ => hinvalid
    | some unixSec =>
        -- the words `ExpireCommand` is called with
        let words := [arg argv 0, arg argv 1, intToString (expireInterval ctx unixSec).toInt]
        have h : Handled s .expireat words _ (expireCommand ctx s words) := handled_expire hs rfl
        have hlen : words.length = 3 := rfl
        have hnum : canConvertToInt64 (arg words 2) = some (expireInterval ctx unixSec) :=
          canConvertToInt64_eq_some.mpr rfl
        rw [if_pos hlen, hnum] at h
        exact ⟨h.paired, h.loses, h.ends, h.starts, h.found⟩
  · exact .refused hs rfl fun _ => hwords

/-- What every handler does. -/
theorem handler_handled (op : Opcode) :
    Handled s op argv (s.takesOut ctx argv op) (op.handler ctx s argv) := by
  cases hop : op.single with
  | true =>
      have hnil : s.takesOut ctx argv op = [] := by
        cases op <;> first | rfl | cases hop
      rw [hnil]
      exact handled_single hs hop
  | false =>
      cases op with
      | del => exact handled_del hs
      | evict => exact handled_evict hs
      | expire => exact handled_expire hs rfl
      | expireat => exact handled_expireat hs
      | _ => cases hop

end

theorem lazyEviction_spec {s : Engine} (hs : s.Paired) (ctx : Ctx) :
    (s.lazyEviction ctx).Paired ∧ (s.lazyEviction ctx).expires = s.expires ∧
      s.holder.Loses (s.lazyVictims ctx) (s.lazyEviction ctx).holder := by
  unfold Engine.lazyEviction Engine.lazyVictims
  cases ctx.pressure with
  | none => exact ⟨hs, rfl, .of_view hs.ok.1 (by simp)⟩
  | some env =>
      have hrem := KVContainer.keyEviction_victims hs.ok.1 ctx.policy 16 env
      exact ⟨hs.of_same hrem.ok rfl rfl, rfl, .of_view hrem.ok hrem.view⟩

theorem step_paired {s : Engine} (hs : s.Paired) (e : Event) : (s.step e).Paired := by
  cases e with
  | timers now stale => exact (handleFired_spec hs now stale).1
  | command ctx argv =>
      rw [Engine.step, handleCommand_lazy]
      cases opcodeOf argv with
      | none => exact hs
      | some op => exact (handler_handled (lazyEviction_spec hs ctx).1 op).paired

/-! ## Keys that stay -/

namespace Engine

/-- The state a command's handler starts from, after the lazy eviction. -/
def midway (s : Engine) : Event → Engine
  | .command ctx argv =>
      match opcodeOf argv with
      | none => s
      | some _ => s.lazyEviction ctx
  | .timers _ _ => s

/-- The key is in the store all through the events. -/
def Keeps (k : Key) : Engine → List Event → Prop
  | s, [] => s.holder.keyExists k = true
  | s, e :: events =>
      s.holder.keyExists k = true ∧ (s.midway e).holder.keyExists k = true ∧
        Keeps k (s.step e) events

/-- An `expire` or `expireat` of the key that answers 1, with the expiration in
the map afterwards. -/
def SetsOn (s : Engine) (k : Key) (e : Event) : Prop :=
  ∃ ctx argv op, e = .command ctx argv ∧ opcodeOf argv = some op ∧ op.expires = true ∧
    .ofStdString (arg argv 1) = k ∧ (s.handleCommand ctx argv).2 = .ok kInt1Msg ∧
    arg argv 1 ∈ keys (s.step e).expires

end Engine

/-- In the run of `events` an expiration was set on the key, and the key has been
in the store ever since. -/
def SetSince (events : List Event) (k : Key) : Prop :=
  ∃ before e after, events = before ++ e :: after ∧ (Engine.new.run before).SetsOn k e ∧
    Engine.Keeps k ((Engine.new.run before).step e) after

theorem run_append_cons (s : Engine) (before : List Event) (e : Event) (after : List Event) :
    s.run (before ++ e :: after) = ((s.run before).step e).run after := by
  rw [Engine.run, Engine.run, Engine.run, List.foldl_append, List.foldl_cons]

theorem run_snoc (s : Engine) (events : List Event) (e : Event) :
    s.run (events ++ [e]) = (s.run events).step e :=
  run_append_cons s events e []

theorem keeps_snoc (k : Key) (e : Event) (events : List Event) : ∀ s : Engine,
    Engine.Keeps k s (events ++ [e]) ↔ Engine.Keeps k s events ∧
      ((s.run events).midway e).holder.keyExists k = true ∧
      ((s.run events).step e).holder.keyExists k = true := by
  induction events with
  | nil => exact fun s => Iff.rfl
  | cons e' events ih =>
    intro s
    rw [List.cons_append, Engine.Keeps, Engine.Keeps, ih, and_assoc, and_assoc]
    rfl

/-- A new event extends a history of a key, or starts one. -/
theorem setSince_snoc (events : List Event) (e : Event) (k : Key) :
    SetSince (events ++ [e]) k ↔ ((Engine.new.run events).step e).holder.keyExists k = true ∧
      ((Engine.new.run events).SetsOn k e ∨
        SetSince events k ∧ ((Engine.new.run events).midway e).holder.keyExists k = true) := by
  constructor
  · rintro ⟨before, e', after, heq, hset, hkeeps⟩
    rcases List.eq_nil_or_concat after with rfl | ⟨after, e'', rfl⟩
    · obtain ⟨rfl, he⟩ := List.append_inj' heq rfl
      obtain rfl := List.singleton_inj.mp he
      exact ⟨hkeeps, Or.inl hset⟩
    · rw [List.concat_eq_append] at heq hkeeps
      rw [← List.cons_append, ← List.append_assoc] at heq
      obtain ⟨rfl, he⟩ := List.append_inj' heq rfl
      obtain rfl := List.singleton_inj.mp he
      obtain ⟨hold, hmid, hnow⟩ := (keeps_snoc k e after _).mp hkeeps
      rw [run_append_cons]
      exact ⟨hnow, Or.inr ⟨⟨before, e', after, rfl, hset, hold⟩, hmid⟩⟩
  · rintro ⟨hnow, hset | ⟨⟨before, e', after, rfl, hset, hkeeps⟩, hmid⟩⟩
    · exact ⟨events, e, [], rfl, hset, hnow⟩
    · rw [run_append_cons] at hnow hmid
      refine ⟨before, e', after ++ [e], by simp, hset, ?_⟩
      exact (keeps_snoc k e after _).mpr ⟨hkeeps, hmid, hnow⟩

/-- An expiration is only set on a key that is there. -/
theorem midway_of_setsOn {s : Engine} (hs : s.Paired) {k : Key} {e : Event} (h : s.SetsOn k e) :
    (s.midway e).holder.keyExists k = true := by
  obtain ⟨ctx, argv, op, rfl, hop, hexp, rfl, hreply, -⟩ := h
  have hh : Handled (s.lazyEviction ctx) op (lowered argv) _ (op.handler ctx _ (lowered argv)) :=
    handler_handled (lazyEviction_spec hs ctx).1 op
  rw [handleCommand_lazy, hop] at hreply
  have hex := hh.found hexp hreply
  simp only [Engine.midway, hop]
  rw [keyOf, arg_lowered] at hex
  exact hex

/-! ## Expirations that belong to their keys -/

/-- After the events: every word of `sExpiresMap` names a key of the store, its
time event is in the list and is its own; and a key that a timer would delete,
now or at any later time, has been in the store since an expiration was set on
it. -/
structure ExpirationsBelong (events : List Event) : Prop where
  live : ∀ w ∈ keys (Engine.new.run events).expires,
    (Engine.new.run events).holder.keyExists (.ofStdString w) = true
  event : ∀ w id, (w, id) ∈ (Engine.new.run events).expires →
    ∃ ev, (Engine.new.run events).tev.deref id = some ev ∧ ev.callback = .byValue w
  apart : ((Engine.new.run events).expires.map Prod.snd).Nodup
  timer : ∀ now stale k, (Engine.new.run events).holder.keyExists k = true →
    ((Engine.new.run events).handleFiredTimeEvent now stale).holder.keyExists k = false →
    SetSince events k

/-- No command takes out a key on which an expiration is pending, and a turn of
the timers that is due for one spelling of a key is due for all that are
pending. -/
def Engine.Fits (s : Engine) : Event → Prop
  | .command ctx argv => ∀ op, opcodeOf argv = some op → ∀ w ∈ keys s.expires,
      .ofStdString w ∉ s.lazyVictims ctx ∧
        .ofStdString w ∉ (s.lazyEviction ctx).takesOut ctx (lowered argv) op
  | .timers now _ => ∀ w ∈ keys s.expires, ∀ w' ∈ s.due now, cStr w = cStr w' → w ∈ s.due now

/-- Every word of the map names a key of the store. -/
def Engine.ExpirationsLive (s : Engine) : Prop :=
  ∀ w ∈ keys s.expires, s.holder.keyExists (.ofStdString w) = true

section

variable {s : Engine} (hs : s.Paired)

include hs

theorem handleFired_exists (now : Nat) (stale : Bytes) (k : Key) :
    (s.handleFiredTimeEvent now stale).holder.keyExists k
      = (!decide (k ∈ (s.due now).map .ofStdString) && s.holder.keyExists k) := by
  obtain ⟨-, -, hfind⟩ := handleFired_spec hs now stale
  rw [KVContainer.keyExists, KVContainer.keyExists, hfind]
  split
  · rename_i hk
    simp [hk]
  · rename_i hk
    simp [hk]

/-- After an event that fits, an expiration is a new one on a key that is there,
or an old one on a key that has stayed. -/
theorem fits_step (hlive : s.ExpirationsLive) {e : Event} (hfit : s.Fits e) :
    (s.step e).ExpirationsLive ∧ ∀ w ∈ keys (s.step e).expires, s.SetsOn (.ofStdString w) e ∨
      w ∈ keys s.expires ∧ (s.midway e).holder.keyExists (.ofStdString w) = true := by
  cases e with
  | timers now stale =>
      obtain ⟨-, hkeys, -⟩ := handleFired_spec hs now stale
      refine ⟨fun w hw => ?_, fun w hw => Or.inr ⟨((hkeys w).mp hw).1, hlive w ((hkeys w).mp hw).1⟩⟩
      obtain ⟨hold, hnot⟩ := (hkeys w).mp hw
      have hstays : StaticString.ofStdString w ∉ (s.due now).map .ofStdString := by
        intro hmem
        obtain ⟨w', hw', heq⟩ := List.mem_map.mp hmem
        exact hnot (hfit w hold w' hw' (StaticString.mk.inj heq).symm)
      rw [Engine.step, handleFired_exists hs, hlive w hold]
      simp [hstays]
  | command ctx argv =>
      unfold Engine.ExpirationsLive
      simp only [Engine.step, handleCommand_lazy, Engine.midway]
      cases hop : opcodeOf argv with
      | none => exact ⟨hlive, fun w hw => Or.inr ⟨hw, hlive w hw⟩⟩
      | some op =>
          obtain ⟨hpair, hexp, hlazy⟩ := lazyEviction_spec hs ctx
          have hh : Handled _ op (lowered argv) _ (op.handler ctx _ (lowered argv)) :=
            handler_handled hpair op
          dsimp only
          -- what was pending has survived the eviction and survives the handler
          have hmid : ∀ w ∈ keys s.expires,
              (s.lazyEviction ctx).holder.keyExists (.ofStdString w) = true := fun w hw =>
            hlazy.stay _ (hfit op hop w hw).1 (hlive w hw)
          have hold : ∀ w ∈ keys s.expires,
              (op.handler ctx (s.lazyEviction ctx) (lowered argv)).1.holder.keyExists
                (.ofStdString w) = true := fun w hw =>
            hh.loses.stay _ (hfit op hop w hw).2 (hmid w hw)
          have hnew : ∀ w ∈ keys (op.handler ctx (s.lazyEviction ctx) (lowered argv)).1.expires,
              w ∉ keys s.expires →
              (op.handler ctx (s.lazyEviction ctx) (lowered argv)).1.holder.keyExists
                (.ofStdString w) = true ∧ s.SetsOn (.ofStdString w) (.command ctx argv) := by
            intro w hw hnot
            rw [← hexp] at hnot
            obtain ⟨hgone, hexpires, hword, hreply⟩ := hh.starts w hw hnot
            have hex := hh.found hexpires hreply
            rw [keyOf, hword] at hex
            rw [arg_lowered] at hword
            refine ⟨hh.loses.stay _ (by rw [hgone]; exact List.not_mem_nil) hex, ctx, argv, op, rfl,
              hop, hexpires, by rw [hword], ?_, ?_⟩
            · rw [handleCommand_lazy, hop]
              exact hreply
            · rw [hword, Engine.step, handleCommand_lazy, hop]
              exact hw
          refine ⟨fun w hw => ?_, fun w hw => ?_⟩
          · by_cases hmem : w ∈ keys s.expires
            · exact hold w hmem
            · exact (hnew w hw hmem).1
          · by_cases hmem : w ∈ keys s.expires
            · exact Or.inr ⟨hmem, hmid w hmem⟩
            · exact Or.inl (hnew w hw hmem).2

/-- When all that is pending after an event is on keys that have stayed, the
event fits. -/
theorem fits_of_step {e : Event} (hlive : (s.step e).ExpirationsLive)
    (hmid : ∀ w ∈ keys (s.step e).expires,
      (s.midway e).holder.keyExists (.ofStdString w) = true) : s.Fits e := by
  cases e with
  | timers now stale =>
      obtain ⟨-, hkeys, -⟩ := handleFired_spec hs now stale
      intro w hw w' hw' heq
      by_contra hnot
      have hex := hlive w ((hkeys w).mpr ⟨hw, hnot⟩)
      have hsame : StaticString.ofStdString w = .ofStdString w' := congrArg StaticString.mk heq
      rw [Engine.step, handleFired_exists hs, hsame] at hex
      simp [List.mem_map_of_mem hw'] at hex
  | command ctx argv =>
      intro op hop w hw
      obtain ⟨hpair, hexp, hlazy⟩ := lazyEviction_spec hs ctx
      have hh : Handled _ op (lowered argv) _ (op.handler ctx _ (lowered argv)) :=
        handler_handled hpair op
      unfold Engine.ExpirationsLive at hlive
      simp only [Engine.step, handleCommand_lazy, hop, Engine.midway] at hlive hmid
      rw [← hexp] at hw
      have hthere : (s.lazyEviction ctx).holder.keyExists (.ofStdString w) = true := by
        by_cases hmem : w ∈ keys (op.handler ctx (s.lazyEviction ctx) (lowered argv)).1.expires
        · exact hmid w hmem
        · exact (hh.ends w hw hmem).2
      refine ⟨fun hv => ?_, fun hv => ?_⟩
      · rw [hlazy.lost _ hv] at hthere
        cases hthere
      · have hmem : w ∈ keys (op.handler ctx (s.lazyEviction ctx) (lowered argv)).1.expires := by
          by_contra hnot
          rw [(hh.ends w hw hnot).1] at hv
          cases hv
        have hex := hlive w hmem
        rw [hh.loses.lost _ hv] at hex
        cases hex

end

/-- A pending expiration is on a key that has stayed: a timer could be due. -/
theorem ExpirationsBelong.setSince {events : List Event} (hs : (Engine.new.run events).Paired)
    (h : ExpirationsBelong events) {w : Bytes} (hw : w ∈ keys (Engine.new.run events).expires) :
    SetSince events (.ofStdString w) := by
  have hevent := hs.words ▸ hw
  obtain ⟨ev, hev, hword⟩ := List.mem_map.mp hevent
  have hdue : w ∈ (Engine.new.run events).due ev.when := by
    rw [hs.due_eq]
    exact List.mem_map.mpr ⟨ev, List.mem_filter.mpr ⟨hev, by simp⟩, hword⟩
  refine h.timer ev.when [] _ (h.live w hw) ?_
  rw [handleFired_exists hs]
  simp [List.mem_map_of_mem hdue]

theorem ExpirationsBelong.of_setSince {events : List Event} (hs : (Engine.new.run events).Paired)
    (hlive : (Engine.new.run events).ExpirationsLive)
    (hset : ∀ w ∈ keys (Engine.new.run events).expires, SetSince events (.ofStdString w)) :
    ExpirationsBelong events := by
  refine ⟨hlive, fun w id h => ?_, hs.ok.2.idsNodup, fun now stale k hex hnot => ?_⟩
  · obtain ⟨ev, -, hderef, hcb⟩ := hs.event h
    exact ⟨ev, hderef, hcb⟩
  · rw [handleFired_exists hs, hex, Bool.and_true, Bool.not_eq_false', decide_eq_true_eq] at hnot
    obtain ⟨w, hw, rfl⟩ := List.mem_map.mp hnot
    exact hset w (List.mem_filter.mp hw).1

/-- An event keeps the expirations with their keys exactly when it fits. -/
theorem expirationsBelong_snoc_iff {events : List Event} (hs : (Engine.new.run events).Paired)
    (hbelong : ExpirationsBelong events) (e : Event) :
    ExpirationsBelong (events ++ [e]) ↔ (Engine.new.run events).Fits e := by
  have hs' : (Engine.new.run (events ++ [e])).Paired := by
    rw [run_snoc]
    exact step_paired hs e
  constructor
  · intro h
    have hlive : ((Engine.new.run events).step e).ExpirationsLive := by
      rw [← run_snoc]
      exact h.live
    refine fits_of_step hs hlive fun w hw => ?_
    rw [← run_snoc] at hw
    obtain ⟨-, hset | ⟨-, hmid⟩⟩ := (setSince_snoc events e _).mp (h.setSince hs' hw)
    · exact midway_of_setsOn hs hset
    · exact hmid
  · intro hfit
    obtain ⟨hlive, hpending⟩ := fits_step hs hbelong.live hfit
    refine .of_setSince hs' (by rw [run_snoc]; exact hlive) fun w hw => ?_
    rw [run_snoc] at hw
    refine (setSince_snoc events e _).mpr ⟨hlive w hw, ?_⟩
    rcases hpending w hw with hset | ⟨hold, hmid⟩
    · exact Or.inl hset
    · exact Or.inr ⟨hbelong.setSince hs hold, hmid⟩

theorem expirationsBelong_nil : ExpirationsBelong [] :=
  .of_setSince paired_new (fun _ hw => absurd hw List.not_mem_nil) fun _ hw =>
    absurd hw List.not_mem_nil

/-- **Expirations belong to live keys, and to the incarnations they were set on,
exactly in the runs whose events all fit.** -/
theorem expirations_belong_iff (events : List Event) :
    (∀ before after, events = before ++ after → ExpirationsBelong before) ↔
      Guarded Engine.step Engine.Fits .new events :=
  guarded_history_iff (I := Engine.Paired) (P := ExpirationsBelong) (s := .new)
    (fun _ e hs hbelong => expirationsBelong_snoc_iff hs hbelong e)
    (fun _ e hs _ => step_paired hs e) events [] paired_new expirationsBelong_nil

/-- `set a 1`, `expire a 100` and `del a`, five seconds after the epoch. -/
def deletedRun : List Event :=
  expiringRun ++ [.command { calm with now := 5000 } [ascii "del", [97]]]

/-- The same and `set a 2`. -/
def recreatedRun : List Event :=
  deletedRun ++ [.command { calm with now := 5000 } [ascii "set", [97], [50]]]

/-- After `del a` the map still has `a`; and a key `a` that is set after that is
deleted by the old timer. -/
theorem old_timer_deletes_new_key :
    ¬ ExpirationsBelong deletedRun ∧
      (Engine.new.run recreatedRun).holder.keyExists ⟨[97]⟩ = true ∧
      (Engine.new.run (recreatedRun ++ [.timers 105000 []])).holder.keyExists ⟨[97]⟩ = false := by
  refine ⟨fun h => ?_, by decide +kernel, by decide +kernel⟩
  have hmem : [97] ∈ keys (Engine.new.run deletedRun).expires := by decide +kernel
  have hex := h.live [97] hmem
  revert hex
  decide +kernel

end LiteKV
