/-
LiteKV.ExpirationTheorems — expirations across a dump.

`sExpiresMap` is declared `static` in a header, so the map the command
handlers fill is not the map `Snapshot` reads. No step of the process
writes `core.cpp`'s copy (`run_expiresCore`): whatever has been expired,
every record is written with the flag 0. `SurvivesSaveLoad` is what a dump
should do for the expirations of the keys it holds, and it does it exactly
when there are none.
-/
import LiteKV.EvictionTheorems
import LiteKV.Net.CommandsTheorems

namespace LiteKV

open Lib Lib.AssocList

/-! ## What no step writes -/

/-- The container stays `Ok`, and the two copies of `sExpiresMap` that are not
the handlers' own stay as they are. -/
structure Frame (s s' : Engine) : Prop where
  ok : s'.holder.Ok
  core : s'.expiresCore = s.expiresCore
  lkvdb : s'.expiresLkvdb = s.expiresLkvdb

theorem Frame.trans {s₁ s₂ s₃ : Engine} (h₁ : Frame s₁ s₂) (h₂ : Frame s₂ s₃) : Frame s₁ s₃ :=
  ⟨h₂.ok, h₂.core.trans h₁.core, h₂.lkvdb.trans h₁.lkvdb⟩

section

variable {ctx : Ctx} {s : Engine} (hok : s.holder.Ok)

include hok

theorem frame_self : Frame s s := ⟨hok, rfl, rfl⟩

theorem frame_append (argv : List Bytes) : Frame s (s.addIntoAppendable ctx argv) := by
  unfold Engine.addIntoAppendable
  split
  · exact ⟨hok, rfl, rfl⟩
  · exact frame_self hok

omit hok in
theorem frame_holder {h : KVContainer} (hh : h.Ok) (argv : List Bytes) :
    Frame s (({ s with holder := h } : Engine).addIntoAppendable ctx argv) := by
  have hf :
      Frame { s with holder := h } (({ s with holder := h } : Engine).addIntoAppendable ctx argv) :=
    frame_append hh argv
  exact ⟨hf.ok, hf.core, hf.lkvdb⟩

theorem frame_setExpiration {key : Bytes} {interval : Int64} {s' : Engine}
    (h : s.setExpiration ctx key interval = some s') : Frame s s' := by
  cases setsExpiration h with
  | create => exact ⟨hok, rfl, rfl⟩
  | delete => exact ⟨(KVContainer.delete_spec hok _).1, rfl, rfl⟩
  | nothing => exact frame_self hok
  | update => exact ⟨hok, rfl, rfl⟩
  | remove => exact ⟨hok, rfl, rfl⟩

theorem frame_logExpiration (key : Bytes) (interval : Int64) :
    Frame s (s.logExpiration ctx key interval) := by
  unfold Engine.logExpiration
  split
  · exact frame_append hok _
  · split
    · exact frame_self hok
    · exact frame_append hok _

theorem frame_expire (argv : List Bytes) : Frame s (expireCommand ctx s argv).1 := by
  obtain ⟨hsame, -⟩ | ⟨interval, s', hexp, heq⟩ := expireCommand_cases s ctx argv
  · rw [hsame]
    exact frame_self hok
  · have h := frame_setExpiration hok hexp.set
    rw [heq]
    exact h.trans (frame_logExpiration h.ok _ _)

theorem frame_handler (op : Opcode) (argv : List Bytes) : Frame s (op.handler ctx s argv).1 := by
  cases hs : op.single with
  | true =>
      have ha : Affects ctx s argv _ _ := handler_affects hok op hs
      exact ⟨ha.acts.1, (congrArg Engine.expiresCore ha.rest).trans rfl,
        (congrArg Engine.expiresLkvdb ha.rest).trans rfl⟩
  | false =>
      cases op with
      | del =>
          have hd := (KVContainer.deleteAll_spec hok (argv.drop 1)).1
          show Frame s (delCommand ctx s argv).1
          unfold delCommand checkSyntaxHelper
          dsimp only
          split
          · exact frame_holder hd argv
          · exact frame_self hok
      | evict =>
          show Frame s (evictCommand ctx s argv).1
          unfold evictCommand checkSyntaxHelper
          dsimp only
          split
          · split
            · exact frame_self hok
            · exact frame_holder (KVContainer.keyEviction_ok hok _ _ _) _
          · exact frame_self hok
      | expire => exact frame_expire hok argv
      | expireat =>
          show Frame s (expireAtCommand ctx s argv).1
          unfold expireAtCommand checkSyntaxHelper
          split
          · split
            · exact frame_self hok
            · exact frame_expire hok _
          · exact frame_self hok
      | _ => cases hs

theorem frame_lazyEviction : Frame s (s.lazyEviction ctx) := by
  unfold Engine.lazyEviction
  split
  · exact frame_self hok
  · exact ⟨KVContainer.keyEviction_ok hok _ _ _, rfl, rfl⟩

theorem frame_command (argv : List Bytes) : Frame s (s.handleCommand ctx argv).1 := by
  unfold Engine.handleCommand
  dsimp only
  split
  · exact frame_self hok
  · have h : Frame s (s.lazyEviction ctx) := frame_lazyEviction hok
    exact h.trans (frame_handler h.ok _ _)

end

/-- The handlers' timers leave `core.cpp`'s map alone as well. -/
theorem timers_core (stale : Bytes) (cbs : List Callback) : ∀ (s : Engine), s.holder.Ok →
    (cbs.foldl (Engine.runCallback stale) s).holder.Ok ∧
      (cbs.foldl (Engine.runCallback stale) s).expiresCore = s.expiresCore := by
  induction cbs with
  | nil => intro s hok; exact ⟨hok, rfl⟩
  | cons cb cbs ih =>
    intro s hok
    have hd := fun key => (KVContainer.delete_spec hok key).1
    cases cb with
    | byValue key => exact ih _ (hd _)
    | byReference => exact ih _ (hd _)

theorem step_core {s : Engine} (hok : s.holder.Ok) (ev : Event) :
    (s.step ev).holder.Ok ∧ (s.step ev).expiresCore = s.expiresCore := by
  cases ev with
  | command ctx argv =>
      have h : Frame s (s.handleCommand ctx argv).1 := frame_command hok argv
      exact ⟨h.ok, h.core⟩
  | timers now stale => exact timers_core stale _ { s with tev := _ } hok

/-- In every state a process can reach, `core.cpp`'s map is empty. -/
theorem run_expiresCore (events : List Event) : ∀ (s : Engine), s.holder.Ok → s.expiresCore = [] →
    (s.run events).holder.Ok ∧ (s.run events).expiresCore = [] := by
  induction events with
  | nil => intro s hok hc; exact ⟨hok, hc⟩
  | cons ev events ih =>
    intro s hok hc
    obtain ⟨hok', hc'⟩ := step_core hok ev
    exact ih _ hok' (hc'.trans hc)

/-! ## Saving and loading expirations -/

namespace Engine

/-- The deadline the handlers' map has for a key. -/
def deadline (s : Engine) (key : Bytes) : Option Nat :=
  (AssocList.find? key s.expires).bind fun ev => (s.tev.deref ev).map TimeEvent.when

/-- The reply of `ttl`. -/
def ttl (s : Engine) (ctx : Ctx) (key : Bytes) : Reply := (ttlCommand ctx s [ascii "ttl", key]).2

/-- What the record of an entry says about its expiration. -/
def recordedDeadline (s : Engine) (key : Key) (value : Payload) : Option Nat :=
  match loadExpiration ((snapshotEntry s.expiresCore s.tev key value).drop 2) with
  | some (true, timestamp, _) => some timestamp
  | _ => none

/-- A new process that has loaded the dump of this one. -/
def reload (s : Engine) (order : IterationOrder s.holder) (now : Nat) : Engine :=
  let r := (liteKVLoad (liteKVSave (s.holder.snapshot order s.expiresCore s.tev)) now .new).1
  ⟨r.holder, [], [], r.expires, r.tev, []⟩

/-- The record of every key has the key's deadline exactly when `ttl` does not
say that there is none; after loading, `ttl` finds the same deadline, and its
callback deletes that key and no other. -/
def SurvivesSaveLoad (s : Engine) (order : IterationOrder s.holder) : Prop :=
  ∀ key obj, s.holder.find key = some obj →
    (∀ ctx, (∃ d, s.deadline key.toStdString = some d ∧
        s.recordedDeadline key obj.payload = some d) ↔
      s.ttl ctx key.toStdString ≠ .ok kIntMinus1Msg) ∧
    ∀ d, s.deadline key.toStdString = some d → ∀ now, now < d →
      (s.reload order now).deadline key.toStdString = some d ∧
      ∀ id ev, AssocList.find? key.toStdString (s.reload order now).expires = some id →
        (s.reload order now).tev.deref id = some ev → ∀ stale,
        (runCallback stale (s.reload order now) ev.callback).holder.view
          = Function.update (s.reload order now).holder.view key none

end Engine

theorem kIntMinus1Msg_eq : kIntMinus1Msg = packIntReply (-1) := by decide

/-- A number that is not negative does not print as -1. -/
theorem packIntReply_ne_minus1 (n : Nat) : packIntReply (n : Int) ≠ kIntMinus1Msg := by
  intro h
  rw [kIntMinus1Msg_eq] at h
  have hn := packIntReply_injective h
  omega

section

variable {s : Engine} {key : Key} {obj : ValueObject} (hok : s.holder.Ok)
  (hf : s.holder.find key = some obj)

include hok hf

/-- `ttl` of a live key says -1 exactly when the handlers' map does not have it. -/
theorem ttl_eq_minus1 (ctx : Ctx) : s.ttl ctx key.toStdString = .ok kIntMinus1Msg ↔
    AssocList.find? key.toStdString s.expires = none := by
  have hkey : StaticString.ofStdString (arg [ascii "ttl", key.toStdString] 1) = key :=
    StaticString.ofStdString_toStdString (hok.clean_of_find key hf)
  have hexists : s.holder.keyExists key = true := by rw [KVContainer.keyExists, hf]; rfl
  have hsyn : checkSyntax [ascii "ttl", key.toStdString] 1 0 false = true := rfl
  rw [Engine.ttl, ttlCommand, checkSyntaxHelper, if_pos hsyn]
  simp only [hkey, hexists, Bool.not_true, Bool.false_eq_true, if_false]
  rw [show arg [ascii "ttl", key.toStdString] 1 = key.toStdString from rfl]
  cases AssocList.find? key.toStdString s.expires with
  | none => simp
  | some id =>
      simp only [Except.ok.injEq, reduceCtorEq, iff_false]
      exact packIntReply_ne_minus1 _

end

theorem recordedDeadline_none {s : Engine} (hc : s.expiresCore = []) (key : Key) (p : Payload) :
    s.recordedDeadline key p = none := by
  rw [Engine.recordedDeadline, hc]
  simp [snapshotEntry, loadExpiration]

/-- Expirations survive a dump exactly when no key of the store has one. -/
theorem expirations_survive_iff (events : List Event)
    (order : IterationOrder (Engine.new.run events).holder) :
    (Engine.new.run events).SurvivesSaveLoad order ↔
      ∀ key obj, (Engine.new.run events).holder.find key = some obj →
        AssocList.find? key.toStdString (Engine.new.run events).expires = none := by
  obtain ⟨hok, hc⟩ := run_expiresCore events .new KVContainer.ok_new rfl
  constructor
  · intro h key obj hf
    have h1 := (h key obj hf).1
      ⟨0, true, .lru, ⟨fun _ => 0, fun _ => [], fun _ => 0⟩, none, fun _ => []⟩
    rw [← ttl_eq_minus1 hok hf]
    by_contra hne
    obtain ⟨d, -, hd⟩ := h1.mpr hne
    rw [recordedDeadline_none hc] at hd
    cases hd
  · intro h key obj hf
    have hnone := h key obj hf
    have hdead : (Engine.new.run events).deadline key.toStdString = none := by
      rw [Engine.deadline, hnone]
      rfl
    refine ⟨fun ctx => ⟨?_, ?_⟩, ?_⟩
    · rintro ⟨d, hd, -⟩
      rw [hdead] at hd
      cases hd
    · intro hne
      exact absurd ((ttl_eq_minus1 hok hf ctx).mpr hnone) hne
    · intro d hd
      rw [hdead] at hd
      cases hd

/-- Five seconds after the epoch, `set a 1` and `expire a 100`. -/
def expiringRun : List Event :=
  let ctx : Ctx := ⟨5000, true, .lru, ⟨fun _ => 0, fun _ => [], fun _ => 0⟩, none, fun _ => []⟩
  [.command ctx [ascii "set", [97], [49]], .command ctx [ascii "expire", [97], ascii "100"]]

/-- The handlers know the deadline; no record and no process that loads one
does. -/
theorem expiration_lost_by_dump :
    (Engine.new.run expiringRun).deadline [97] = some 105000 ∧
      (Engine.new.run expiringRun).recordedDeadline ⟨[97]⟩ (.int 1) = none ∧
      ((Engine.new.run expiringRun).reload (.ofBuckets _) 6000).deadline [97] = none ∧
      ¬ (Engine.new.run expiringRun).SurvivesSaveLoad (.ofBuckets _) := by
  have hdead : (Engine.new.run expiringRun).deadline [97] = some 105000 := by decide +kernel
  have hmap : AssocList.find? [97] (Engine.new.run expiringRun).expires ≠ none := by decide +kernel
  have hrec : ∀ p, (Engine.new.run expiringRun).recordedDeadline ⟨[97]⟩ p = none :=
    recordedDeadline_none (run_expiresCore expiringRun .new KVContainer.ok_new rfl).2 ⟨[97]⟩
  refine ⟨hdead, hrec _, rfl, fun h => ?_⟩
  have hsome : ((Engine.new.run expiringRun).holder.find ⟨[97]⟩).isSome = true := by decide +kernel
  obtain ⟨obj, hf⟩ := Option.isSome_iff_exists.mp hsome
  have hok := (run_expiresCore expiringRun .new KVContainer.ok_new rfl).1
  let ctx : Ctx := ⟨5000, true, .lru, ⟨fun _ => 0, fun _ => [], fun _ => 0⟩, none, fun _ => []⟩
  obtain ⟨d, -, hd⟩ := ((h ⟨[97]⟩ obj hf).1 ctx).mpr fun hm =>
    hmap ((ttl_eq_minus1 hok hf ctx).mp hm)
  rw [hrec] at hd
  cases hd

end LiteKV
