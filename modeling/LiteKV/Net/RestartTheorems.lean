/-
LiteKV.Net.RestartTheorems — what a process finds again after a restart.

An expiration is relative to a clock, and the clock of a replay is another
one. So the theorems are about the keys that no command gives an expiration
to: a set `K` of keys that `expire` and `expireat` never name. On these keys
a command of the file means the same at any time (`redoable_redoes`), timers
do nothing, and a command of the live process logs what it does
(`command_records`). Nothing is asked of the other keys: they may expire,
and what a restart makes of them is left open.

`Recoverable` is the invariant: the file, then the commands that wait, are
the log, and the log means what the process holds. The first part of it
stays when the process is gone; which part, is decided by the worker and, if
it is killed while it writes, by the last byte that got to the disk. In any
case it is a log the process had at some moment (`Moment`), so the keys of
`K` are found together as they once were.
-/
import LiteKV.TornTheorems
import LiteKV.Net.RecoverTheorems
import LiteKV.Net.TimerTheorems
import LiteKV.Net.Restart

namespace LiteKV

open Lib Lib.AssocList Lib.Run

/-! ## The meaning of a command -/

namespace Store

section

variable {K : Set Key} {m m' : Store}

theorem redo_single (m : Store) {op : Opcode} (hs : op.single = true) (args : List Bytes) :
    m.redo (op.name :: args) = Function.update m (keyOf (op.name :: args))
      (op.effect (op.name :: args) (m (keyOf (op.name :: args)))).1 := by
  have hdel : op ≠ .del := by
    rintro rfl
    cases hs
  rw [redo, opcodeOf_name]
  dsimp only
  rw [if_neg hdel, if_pos hs]

theorem redo_del (m : Store) (names : List Bytes) :
    m.redo (Opcode.name .del :: names)
      = fun k => if k ∈ names.map StaticString.ofStdString then none else m k := by
  rw [redo, opcodeOf_name]
  rfl

theorem redo_expireat (m : Store) (args : List Bytes) :
    m.redo (Opcode.name .expireat :: args) = m := by
  rw [redo, opcodeOf_name]
  rfl

/-- What a command does to some keys depends on these keys alone. -/
theorem redo_congr (h : Set.EqOn m m' K) (argv : List Bytes) :
    Set.EqOn (m.redo argv) (m'.redo argv) K := by
  intro k hk
  unfold redo
  cases opcodeOf argv with
  | none => exact h hk
  | some op =>
      dsimp only
      split
      · -- `del`
        dsimp only
        split
        · rfl
        · exact h hk
      · split
        · simp only [Function.update_apply]
          split
          · rename_i hkey
            subst hkey
            rw [h hk]
          · exact h hk
        · exact h hk

/-- A command on one key that is not of them does nothing to them. -/
theorem redo_other (m : Store) {op : Opcode} (hs : op.single = true) {args : List Bytes}
    (hkey : keyOf (op.name :: args) ∉ K) : Set.EqOn (m.redo (op.name :: args)) m K := by
  intro k hk
  have hne : k ≠ keyOf (op.name :: args) := fun he => hkey (he ▸ hk)
  rw [redo_single m hs, Function.update_of_ne hne]

theorem foldl_redo_congr (log : List (List Bytes)) : ∀ {m m' : Store}, Set.EqOn m m' K →
    Set.EqOn (log.foldl redo m) (log.foldl redo m') K := by
  induction log with
  | nil => intro m m' h; exact h
  | cons argv log ih => intro m m' h; exact ih (redo_congr h argv)

theorem ofLog_append (log new : List (List Bytes)) :
    ofLog (log ++ new) = new.foldl redo (ofLog log) := List.foldl_append

end

end Store

/-! ## Processes whose timers spare some keys -/

/-- No timer is for a key of `K`. -/
def TimeEventHolder.Spares (K : Set Key) (t : TimeEventHolder) : Prop :=
  ∀ ev ∈ t.eventList, ∃ key, ev.callback = .byValue key ∧ StaticString.ofStdString key ∉ K

/-- What holds of every process when no key of `K` gets an expiration. -/
structure Engine.Sound (K : Set Key) (s : Engine) : Prop where
  ok : s.holder.Ok
  spares : s.tev.Spares K

theorem Engine.sound_new (K : Set Key) : Engine.new.Sound K := by
  refine ⟨KVContainer.ok_new, ?_⟩
  intro ev hev
  cases hev

/-- `s'` is to the keys of `K` what the commands make of `s`. -/
structure Engine.Redoes (K : Set Key) (s s' : Engine) (log : List (List Bytes)) : Prop where
  sound : s'.Sound K
  view : Set.EqOn s'.holder.view (log.foldl Store.redo s.holder.view) K

section

variable {K : Set Key} {ctx : Ctx} {s s' : Engine}

theorem Engine.redoes_self (h : s.Sound K) : s.Redoes K s [] := ⟨h, Set.eqOn_refl _ K⟩

theorem Engine.Redoes.append {s'' : Engine} {log log' : List (List Bytes)}
    (h : s.Redoes K s' log) (h' : s'.Redoes K s'' log') : s.Redoes K s'' (log ++ log') := by
  refine ⟨h'.sound, ?_⟩
  rw [List.foldl_append]
  exact h'.view.trans (Store.foldl_redo_congr log' h.view)

namespace TimeEventHolder

/-- Firing an event calls its own callback, and keeps it. -/
theorem fire_callback (now : Nat) (ev : TimeEvent) :
    (∀ ev', (fire now ev).1 = some ev' → ev'.callback = ev.callback) ∧
      ∀ cb ∈ (fire now ev).2, cb = ev.callback := by
  unfold fire
  dsimp only
  generalize (if (ev.when ≤ now ∧ ev.count ≠ 0) ∧ 0 ≤ ev.count then ev.count - 1 else ev.count)
    = count
  by_cases hc : count = 0
  · rw [if_pos hc]
    refine ⟨fun ev' h => (by cases h), fun cb hcb => ?_⟩
    dsimp only at hcb
    split at hcb
    · exact List.mem_singleton.mp hcb
    · cases hcb
  · rw [if_neg hc]
    split
    · refine ⟨fun ev' h => ?_, fun cb hcb => List.mem_singleton.mp hcb⟩
      cases h
      rfl
    · refine ⟨fun ev' h => ?_, fun cb hcb => by cases hcb⟩
      cases h
      rfl

variable {t : TimeEventHolder} (h : t.Spares K)

include h

theorem Spares.create {key : Bytes} (hkey : StaticString.ofStdString key ∉ K) (now interval : Nat)
    (count : Int) : (t.createTimeEvent now interval (.byValue key) count).1.Spares K := by
  intro ev hev
  rcases List.mem_cons.mp hev with rfl | hev
  · exact ⟨key, rfl, hkey⟩
  · exact h ev hev

theorem Spares.update (now id interval : Nat) (count : Int) :
    (t.updateTimeEvent now id interval count).1.Spares K := by
  unfold updateTimeEvent
  split
  · exact h
  · intro ev hev
    obtain ⟨ev', hev', rfl⟩ := List.mem_map.mp hev
    split
    · exact h ev' hev'
    · exact h ev' hev'

theorem Spares.remove (id : Nat) : (t.removeTimeEvent id).1.Spares K := by
  unfold removeTimeEvent
  split
  · exact h
  · exact fun ev hev => h ev (List.mem_of_mem_eraseP hev)

theorem Spares.fired (now : Nat) : (t.handleFiredTimeEvent now).1.Spares K := by
  intro ev hev
  obtain ⟨ev', hev', hfire⟩ := List.mem_filterMap.mp hev
  rw [(fire_callback now ev').1 ev hfire]
  exact h ev' hev'

theorem Spares.callbacks (now : Nat) : ∀ cb ∈ (t.handleFiredTimeEvent now).2,
    ∃ key, cb = .byValue key ∧ StaticString.ofStdString key ∉ K := by
  intro cb hcb
  obtain ⟨ev, hev, hfire⟩ := List.mem_flatMap.mp hcb
  rw [(fire_callback now ev).2 cb hfire]
  exact h ev hev

end TimeEventHolder

/-- A turn of the timers changes no key of `K`. -/
theorem timers_spare (stale : Bytes) : ∀ (cbs : List Callback) {s : Engine}, s.Sound K →
    (∀ cb ∈ cbs, ∃ key, cb = .byValue key ∧ StaticString.ofStdString key ∉ K) →
    s.Redoes K (cbs.foldl (Engine.runCallback stale) s) []
  | [], s, hs, _ => Engine.redoes_self hs
  | cb :: cbs, s, hs, hcbs => by
      obtain ⟨key, rfl, hkey⟩ := hcbs cb List.mem_cons_self
      obtain ⟨hok, hview⟩ := KVContainer.delete_acts hs.ok (.ofStdString key)
      have hstep : s.Redoes K (Engine.runCallback stale s (.byValue key)) [] := by
        refine ⟨⟨hok, hs.spares⟩, fun k hk => ?_⟩
        have hne : k ≠ .ofStdString key := fun he => hkey (he ▸ hk)
        show (s.holder.delete (.ofStdString key)).1.view k = s.holder.view k
        rw [hview, Function.update_of_ne hne]
      exact hstep.append (timers_spare stale cbs hstep.sound
        fun cb hcb => hcbs cb (List.mem_cons_of_mem _ hcb))

theorem handleFired_redoes (hs : s.Sound K) (now : Nat) (stale : Bytes) :
    s.Redoes K (s.handleFiredTimeEvent now stale) [] := by
  have hsound : ({ s with tev := (s.tev.handleFiredTimeEvent now).1 } : Engine).Sound K :=
    ⟨hs.ok, hs.spares.fired now⟩
  have h := timers_spare stale (s.tev.handleFiredTimeEvent now).2 hsound (hs.spares.callbacks now)
  exact ⟨h.sound, h.view⟩

/-! ## Commands on a process -/

namespace Engine

@[simp] theorem addIntoAppendable_holder (argv : List Bytes) :
    (s.addIntoAppendable ctx argv).holder = s.holder := by
  unfold addIntoAppendable
  split <;> rfl

@[simp] theorem addIntoAppendable_tev (argv : List Bytes) :
    (s.addIntoAppendable ctx argv).tev = s.tev := by
  unfold addIntoAppendable
  split <;> rfl

@[simp] theorem logExpiration_holder (key : Bytes) (interval : Int64) :
    (s.logExpiration ctx key interval).holder = s.holder := by
  obtain ⟨log, hlog⟩ := logExpiration_eq s ctx key interval
  rw [hlog]

@[simp] theorem logExpiration_tev (key : Bytes) (interval : Int64) :
    (s.logExpiration ctx key interval).tev = s.tev := by
  obtain ⟨log, hlog⟩ := logExpiration_eq s ctx key interval
  rw [hlog]

end Engine

/-- A command of the file that gives no key of `K` an expiration. -/
def Redoable (K : Set Key) (argv : List Bytes) : Prop :=
  Loggable argv ∧ (opcodeOf argv = some .expireat → keyOf argv ∉ K)

/-- What a command on one key does, when the process runs it. -/
theorem single_redoes (hs : s.Sound K) {op : Opcode} (hop : op.single = true) (args : List Bytes) :
    s.Redoes K (op.handler ctx s (op.name :: args)).1 [op.name :: args] := by
  have ha : Affects ctx s (op.name :: args) _ _ := handler_affects hs.ok op hop
  have htev : (op.handler ctx s (op.name :: args)).1.tev = s.tev :=
    (congrArg Engine.tev ha.rest).trans rfl
  refine ⟨⟨ha.acts.1, htev ▸ hs.spares⟩, ?_⟩
  rw [List.foldl_cons, List.foldl_nil, Store.redo_single _ hop, ha.acts.2]
  exact Set.eqOn_refl _ K

/-- An `expire` of another key. -/
theorem expire_redoes (hs : s.Sound K) {argv : List Bytes} (hkey : keyOf argv ∉ K) :
    s.Redoes K (expireCommand ctx s argv).1 [] := by
  obtain ⟨hsame, -⟩ | ⟨interval, s', hexp, heq⟩ := expireCommand_cases s ctx argv
  · rw [hsame]
    exact Engine.redoes_self hs
  · have hset : s.Redoes K s' [] := by
      cases setsExpiration hexp.set with
      | create => exact ⟨⟨hs.ok, hs.spares.create hkey _ _ _⟩, Set.eqOn_refl _ K⟩
      | delete =>
          obtain ⟨hok, hview⟩ := KVContainer.delete_acts hs.ok (keyOf argv)
          refine ⟨⟨hok, hs.spares⟩, fun k hk => ?_⟩
          have hne : k ≠ keyOf argv := fun he => hkey (he ▸ hk)
          show (s.holder.delete (keyOf argv)).1.view k = s.holder.view k
          rw [hview, Function.update_of_ne hne]
      | nothing => exact Engine.redoes_self hs
      | @update id tev _ _ ht =>
          have hsp := hs.spares.update ctx.now id (interval.toInt.toNat * 1000 % 2 ^ 64) 1
          rw [ht] at hsp
          exact ⟨⟨hs.ok, hsp⟩, Set.eqOn_refl _ K⟩
      | @remove id tev _ _ ht =>
          have hsp := hs.spares.remove id
          rw [ht] at hsp
          exact ⟨⟨hs.ok, hsp⟩, Set.eqOn_refl _ K⟩
    rw [heq]
    refine ⟨⟨?_, ?_⟩, ?_⟩
    · rw [Engine.logExpiration_holder]
      exact hset.sound.ok
    · rw [Engine.logExpiration_tev]
      exact hset.sound.spares
    · rw [Engine.logExpiration_holder]
      exact hset.view

theorem expireat_redoes (hs : s.Sound K) {argv : List Bytes} (hkey : keyOf argv ∉ K) :
    s.Redoes K (expireAtCommand ctx s argv).1 [] := by
  unfold expireAtCommand checkSyntaxHelper
  split
  · split
    · exact Engine.redoes_self hs
    · exact expire_redoes hs hkey
  · exact Engine.redoes_self hs

theorem del_redoes (hs : s.Sound K) (names : List Bytes) :
    s.Redoes K (delCommand ctx s (Opcode.name .del :: names)).1 [Opcode.name .del :: names] := by
  obtain ⟨hok, hview⟩ := KVContainer.deleteAll_spec hs.ok names
  unfold delCommand checkSyntaxHelper
  split
  · refine ⟨⟨?_, ?_⟩, ?_⟩
    · rw [Engine.addIntoAppendable_holder]
      exact hok
    · rw [Engine.addIntoAppendable_tev]
      exact hs.spares
    · rw [Engine.addIntoAppendable_holder, List.foldl_cons, List.foldl_nil, Store.redo_del]
      exact fun k _ => congrFun hview k
  · -- a bare `del` is refused; there is nothing to delete
    rename_i hsyn
    have hnil : names = [] := by
      cases names with
      | nil => rfl
      | cons n names => exact absurd (by simp [checkSyntax]) hsyn
    refine ⟨hs, fun k _ => ?_⟩
    rw [List.foldl_cons, List.foldl_nil, Store.redo_del, hnil]
    rfl

/-- **A command of the file does to the keys of `K` what it means**, at any time. -/
theorem redoable_redoes (hs : s.Sound K) (hp : ctx.pressure = none) {argv : List Bytes}
    (h : Redoable K argv) : s.Redoes K (s.handleCommand ctx argv).1 [argv] := by
  obtain ⟨⟨e, rfl⟩, hexp⟩ := h
  rw [LogEntry.argv] at hexp ⊢
  rw [handleCommand_logged s hp]
  cases hop : e.opcode.single with
  | true => exact single_redoes hs hop e.words
  | false =>
      cases e with
      | del names => exact del_redoes hs names
      | expireat key sec =>
          have hkey := hexp (opcodeOf_name .expireat _)
          have hr : s.Redoes K (expireAtCommand ctx s
              (Opcode.name .expireat :: LogEntry.words (.expireat key sec))).1 [] :=
            expireat_redoes hs hkey
          refine ⟨hr.sound, ?_⟩
          show Set.EqOn _ (s.holder.view.redo
            (Opcode.name .expireat :: LogEntry.words (.expireat key sec))) K
          rw [Store.redo_expireat]
          exact hr.view
      | _ => cases hop

/-! ## Commands that are logged -/

/-- What a step does to the process and to the log. -/
structure Engine.Records (K : Set Key) (s s' : Engine) (new : List (List Bytes)) : Prop where
  log : s'.log = s.log ++ new
  short : new.length ≤ 1
  redoable : ∀ argv ∈ new, Redoable K argv
  redoes : s.Redoes K s' new

theorem Engine.records_self (hs : s.Sound K) : s.Records K s [] :=
  ⟨(List.append_nil _).symm, Nat.zero_le 1, fun argv h => (by cases h), Engine.redoes_self hs⟩

/-- Deleting keys, and logging their names. -/
theorem deletion_records (hs : s.Sound K) {h : KVContainer} {names : List Bytes} (hok : h.Ok)
    (hview : h.view = fun k =>
      if k ∈ names.map StaticString.ofStdString then none else s.holder.view k) :
    s.Records K { s with holder := h, log := s.log ++ [Opcode.name .del :: names] }
      [Opcode.name .del :: names] := by
  refine ⟨rfl, Nat.le_refl 1, ?_, ⟨hok, hs.spares⟩, ?_⟩
  · intro argv hargv
    rw [List.mem_singleton.mp hargv]
    refine ⟨⟨.del names, rfl⟩, fun hop => ?_⟩
    rw [opcodeOf_name] at hop
    cases hop
  · rw [List.foldl_cons, List.foldl_nil, Store.redo_del]
    exact fun k _ => congrFun hview k

/-- An eviction deletes the keys it reports, unless it draws them. -/
theorem keyEviction_view {h : KVContainer} (hok : h.Ok) (policy : KVContainer.EvictionPolicy)
    (n : Nat) (env : KVContainer.EvictionEnv)
    (hf : policy = .random → h.keysPool ≠ [] → n = 0) :
    (h.keyEviction policy n env).1.Ok ∧ (h.keyEviction policy n env).1.view = fun k =>
      if k ∈ (h.keyEviction policy n env).2.map StaticString.ofStdString then none
      else h.view k := by
  have hnone : h.Ok ∧ h.view = fun k =>
      if k ∈ ([] : List Bytes).map StaticString.ofStdString then none else h.view k :=
    ⟨hok, by simp⟩
  unfold KVContainer.keyEviction
  split
  · exact hnone
  · rename_i hpool
    cases policy with
    | lru =>
        dsimp only
        split
        · exact hnone
        · exact KVContainer.evictLru_spec env _ 0 hok
    | random =>
        have hn : n = 0 := hf rfl (by simpa using hpool)
        rw [hn, Nat.min_zero]
        exact hnone

theorem lazyEviction_records (hs : s.Sound K) (hpol : ctx.pressure ≠ none → ctx.policy = .lru) :
    ∃ new, s.Records K (s.lazyEviction ctx) new := by
  unfold Engine.lazyEviction
  split
  · exact ⟨[], Engine.records_self hs⟩
  · rename_i env hp
    have hlru := hpol (by rw [hp]; exact Option.some_ne_none env)
    obtain ⟨hok, hview⟩ := keyEviction_view hs.ok ctx.policy 16 env
      fun hr => by rw [hlru] at hr; cases hr
    exact ⟨_, deletion_records hs hok hview⟩

section Live

variable (hsync : ctx.sync = true) (hs : s.Sound K)

include hsync hs

theorem single_records {op : Opcode} (hop : op.single = true) {args : List Bytes}
    (hf : keyOf (op.name :: args) ∈ K →
      ¬ PopsEmpty op (op.name :: args) (s.holder.view (keyOf (op.name :: args)))) :
    ∃ new, s.Records K (op.handler ctx s (op.name :: args)).1 new := by
  have ha : Affects ctx s (op.name :: args) _ _ := handler_affects hs.ok op hop
  have hlog := affects_log ha
  have hr : s.Redoes K (op.handler ctx s (op.name :: args)).1 _ := single_redoes hs hop args
  rw [hsync, Bool.true_and] at hlog
  cases he : (op.effect (op.name :: args) (s.holder.view (keyOf (op.name :: args)))).2 with
  | true =>
      rw [he, if_pos rfl] at hlog
      refine ⟨_, hlog, Nat.le_refl 1, fun argv hargv => ?_, hr⟩
      rw [List.mem_singleton.mp hargv]
      refine ⟨loggable_single he, fun hexp => ?_⟩
      rw [opcodeOf_name] at hexp
      cases hexp
      cases hop
  | false =>
      rw [he] at hlog
      refine ⟨[], hlog, Nat.zero_le 1, fun argv hargv => (by cases hargv), hr.sound, ?_⟩
      -- what is not logged changes no key of `K`
      intro k hk
      rw [ha.acts.2, Function.update_apply]
      split
      · rename_i hkey
        subst hkey
        exact effect_silent he (hf hk)
      · rfl

theorem del_records (names : List Bytes) :
    ∃ new, s.Records K (delCommand ctx s (Opcode.name .del :: names)).1 new := by
  obtain ⟨hok, hview⟩ := KVContainer.deleteAll_spec hs.ok names
  unfold delCommand checkSyntaxHelper
  split
  · simp only [Engine.addIntoAppendable, hsync, if_true, List.drop_succ_cons, List.drop_zero]
    exact ⟨_, deletion_records hs hok hview⟩
  · exact ⟨[], Engine.records_self hs⟩

theorem evict_records {argv : List Bytes} (hf : ¬ Misreports s ctx .evict argv) :
    ∃ new, s.Records K (evictCommand ctx s argv).1 new := by
  unfold evictCommand checkSyntaxHelper
  split
  · rename_i hsyn
    split
    · exact ⟨[], Engine.records_self hs⟩
    · rename_i n hn
      obtain ⟨hok, hview⟩ := keyEviction_view hs.ok ctx.policy n ctx.evict
        fun hr hpool => by
          by_contra hn0
          exact hf ⟨hsyn, hr, hpool, n, hn, hn0⟩
      simp only [Engine.addIntoAppendable, hsync, if_true]
      exact ⟨_, deletion_records hs hok hview⟩
  · exact ⟨[], Engine.records_self hs⟩

/-- What is logged of an expiration of another key does nothing to `K`. -/
theorem logExpiration_records {key : Bytes} (hkey : StaticString.ofStdString key ∉ K)
    (interval : Int64) : ∃ new, s.Records K (s.logExpiration ctx key interval) new := by
  unfold Engine.logExpiration
  split
  · rw [Engine.addIntoAppendable, if_pos hsync]
    refine ⟨_, rfl, Nat.le_refl 1, fun argv hargv => ?_, ⟨hs.ok, hs.spares⟩, ?_⟩
    · rw [List.mem_singleton.mp hargv]
      refine ⟨⟨.expireat key (.ofNat (ctx.nowSec + interval.toInt.toNat)), ?_⟩, fun _ => hkey⟩
      simp only [LogEntry.argv, LogEntry.words, UInt64.toNat_ofNat']
      rfl
    · rw [List.foldl_cons, List.foldl_nil]
      exact fun k _ => (congrFun (Store.redo_expireat _ _) k).symm
  · split
    · exact ⟨[], Engine.records_self hs⟩
    · rename_i recovered hrec
      rw [Engine.addIntoAppendable, if_pos hsync]
      have hloggable := loggable_recovered hrec
      rw [KVContainer.recoverCommandFromValue_eq, Option.map_eq_some_iff] at hrec
      obtain ⟨obj, -, rfl⟩ := hrec
      refine ⟨_, rfl, Nat.le_refl 1, fun argv hargv => ?_, ⟨hs.ok, hs.spares⟩, ?_⟩
      · rw [List.mem_singleton.mp hargv]
        exact ⟨hloggable, fun _ => hkey⟩
      · rw [List.foldl_cons, List.foldl_nil]
        exact (Store.redo_other _ (recoverOp_single obj.payload) hkey).symm

theorem expire_records {argv : List Bytes} (hkey : keyOf argv ∉ K) :
    ∃ new, s.Records K (expireCommand ctx s argv).1 new := by
  have hr : s.Redoes K (expireCommand ctx s argv).1 [] := expire_redoes hs hkey
  obtain ⟨hsame, -⟩ | ⟨interval, s', hexp, heq⟩ := expireCommand_cases s ctx argv
  · rw [hsame]
    exact ⟨[], Engine.records_self hs⟩
  · rw [heq] at hr ⊢
    have hs' : s'.Sound K := by
      have hok := hr.sound.ok
      have hspares := hr.sound.spares
      rw [Engine.logExpiration_holder] at hok
      rw [Engine.logExpiration_tev] at hspares
      exact ⟨hok, hspares⟩
    obtain ⟨new, hnew⟩ := logExpiration_records hsync hs' hkey interval
    have hview := hr.view
    rw [Engine.logExpiration_holder] at hview
    refine ⟨new, ?_, hnew.short, hnew.redoable, hr.sound, ?_⟩
    · rw [hnew.log, setExpiration_log hexp.set]
    · exact hnew.redoes.view.trans (Store.foldl_redo_congr new hview)

theorem expireat_records {argv : List Bytes} (hkey : keyOf argv ∉ K) :
    ∃ new, s.Records K (expireAtCommand ctx s argv).1 new := by
  unfold expireAtCommand checkSyntaxHelper
  split
  · split
    · exact ⟨[], Engine.records_self hs⟩
    · exact expire_records hsync hs hkey
  · exact ⟨[], Engine.records_self hs⟩

/-- **A command of the live process logs what it does to the keys of `K`.** -/
theorem command_records (hp : ctx.pressure = none) {argv : List Bytes}
    (hf : FaithfulOn K s ctx argv) : ∃ new, s.Records K (s.handleCommand ctx argv).1 new := by
  rw [handleCommand_eq s hp]
  cases hop : opcodeOf argv with
  | none => exact ⟨[], Engine.records_self hs⟩
  | some op =>
      have hm := hf op hop
      have hkey : keyOf (lowered argv) = keyOf argv :=
        congrArg StaticString.ofStdString (arg_lowered argv)
      rw [← hkey] at hm
      rw [lowered_eq hop] at hm ⊢
      cases hs' : op.single with
      | true =>
          refine single_records hsync hs hs' fun hk => ?_
          cases op with
          | evict | expire | expireat => cases hs'
          | _ => exact hm hk
      | false =>
          cases op with
          | evict => exact evict_records hsync hs hm
          | del => exact del_records hsync hs _
          | expire => exact expire_records hsync hs hm
          | expireat => exact expireat_records hsync hs hm
          | _ => cases hs'

end Live

end

/-! ## Replaying the file -/

section

variable {K : Set Key} {ctx : Ctx} {s : Engine}

theorem addIntoAppendable_silent (hsync : ctx.sync = false) (argv : List Bytes) :
    s.addIntoAppendable ctx argv = s := by
  rw [Engine.addIntoAppendable, hsync]
  rfl

theorem expire_silent (hsync : ctx.sync = false) (argv : List Bytes) :
    (expireCommand ctx s argv).1.log = s.log := by
  obtain ⟨hsame, -⟩ | ⟨interval, s', hexp, heq⟩ := expireCommand_cases s ctx argv
  · rw [hsame]
  · rw [heq, ← setExpiration_log hexp.set]
    unfold Engine.logExpiration
    split
    · rw [addIntoAppendable_silent hsync]
    · split
      · rfl
      · rw [addIntoAppendable_silent hsync]

/-- A command of the file that is replayed is not logged again. -/
theorem redoable_silent (hs : s.Sound K) (hr : Replays ctx) {argv : List Bytes}
    (h : Redoable K argv) : (s.handleCommand ctx argv).1.log = s.log := by
  obtain ⟨⟨e, rfl⟩, -⟩ := h
  rw [LogEntry.argv, handleCommand_logged s hr.pressure]
  cases hop : e.opcode.single with
  | true =>
      have ha : Affects ctx s (e.opcode.name :: e.words) _ _ := handler_affects hs.ok e.opcode hop
      rw [affects_log ha, hr.sync]
      exact List.append_nil _
  | false =>
      cases e with
      | del names =>
          show (delCommand ctx s _).1.log = s.log
          unfold delCommand checkSyntaxHelper
          dsimp only
          split
          · rw [addIntoAppendable_silent hr.sync]
          · rfl
      | expireat key sec =>
          show (expireAtCommand ctx s _).1.log = s.log
          unfold expireAtCommand checkSyntaxHelper
          split
          · split
            · rfl
            · exact expire_silent hr.sync _
          · rfl
      | _ => cases hop

end

namespace AppendableFile

theorem encode_given (cs : List Command) : encode (given cs) = encodeAll cs := by
  rw [encode, given, List.map_map]
  rfl

end AppendableFile

namespace Durable

variable {K : Set Key} {boot : Boot} {d : Durable} {s : Engine} {ws rs : List Command}

theorem appendLogged_of_log {new : List (List Bytes)} (h : s.log = d.engine.log ++ new) :
    d.appendLogged s = ⟨s, new.foldl (fun f argv => f.append (.ofArgv argv)) d.aof⟩ := by
  rw [appendLogged, h, List.drop_left]

/-- Reading the commands of a file: their meaning, and nothing for the caches. -/
theorem readFromScratch_redoes : ∀ (cs : List Command) (ctx : Nat → Ctx) {d : Durable},
    (∀ i, Replays (ctx i)) → (∀ c ∈ cs, Redoable K c.argv) → d.engine.Sound K →
    (readFromScratch ctx d (given cs)).aof = d.aof ∧
      d.engine.Redoes K (readFromScratch ctx d (given cs)).engine (cs.map Command.argv)
  | [], _, _, _, _, hs => ⟨rfl, Engine.redoes_self hs⟩
  | c :: cs, ctx, d, hctx, hcs, hs => by
      have hc := hcs c List.mem_cons_self
      have hstep : d.engine.Redoes K _ _ := redoable_redoes hs (hctx 0).pressure hc
      have hlog := redoable_silent hs (hctx 0) hc
      have hnext : d.appendLogged (d.engine.handleCommand (ctx 0) c.argv).1
          = ⟨(d.engine.handleCommand (ctx 0) c.argv).1, d.aof⟩ :=
        appendLogged_of_log (by rw [hlog, List.append_nil])
      obtain ⟨haof, hrest⟩ := readFromScratch_redoes cs (fun i => ctx (i + 1))
        (fun i => hctx (i + 1)) (fun c' hc' => hcs c' (List.mem_cons_of_mem c hc')) hstep.sound
        (d := ⟨(d.engine.handleCommand (ctx 0) c.argv).1, d.aof⟩)
      have hread : readFromScratch ctx d (given (c :: cs)) = readFromScratch (fun i => ctx (i + 1))
          (d.appendLogged (d.engine.handleCommand (ctx 0) c.argv).1) (given cs) := rfl
      rw [hread, hnext]
      exact ⟨haof, hstep.append hrest⟩

/-- A process that has read some commands from its file. -/
theorem start_redoes (hboot : boot.Replaying) {file : Bytes} {cs : List Command}
    (hcs : ∀ c ∈ cs, Redoable K c.argv)
    (hread : commonOperation restoreAofReadBufSize file = given cs) :
    (start boot file).aof = ⟨boot.cacheSize, [], [], file⟩ ∧
      (start boot file).engine.Sound K ∧
      Set.EqOn (start boot file).engine.holder.view (Store.ofLog (cs.map Command.argv)) K := by
  obtain ⟨haof, hredo⟩ := readFromScratch_redoes cs boot.ctx hboot hcs (Engine.sound_new K)
    (d := ⟨.new, ⟨boot.cacheSize, [], [], file⟩⟩)
  rw [start, hread]
  refine ⟨haof, hredo.sound, ?_⟩
  have hview := hredo.view
  rw [show Engine.new.holder.view = fun _ => none from KVContainer.view_new] at hview
  exact hview

/-- A file of whole commands is read to its end. -/
theorem read_encodeAll (ws : List Command) :
    commonOperation restoreAofReadBufSize (encodeAll ws) = given ws := by
  obtain ⟨done, rest, m, hsplit, hread, hm, hpart⟩ :=
    commonOperation_prefix (by decide : 0 < restoreAofReadBufSize) (List.prefix_refl (encodeAll ws))
  -- no command is incomplete, so none is left
  have hrest : rest = [] := by
    cases rest with
    | nil => rfl
    | cons c cs =>
        have hlt := hpart c rfl
        rw [hsplit, encodeAll_append, encodeAll_cons, List.length_append,
          List.length_append] at hm
        omega
  rw [hread, hsplit, hrest, List.append_nil]

/-! ## What is recoverable -/

/-- The commands in the file and those on their way there, and what they mean to
the keys of `K`. -/
structure Recoverable (K : Set Key) (d : Durable) (ws rs : List Command) : Prop where
  sound : d.engine.Sound K
  redoable : ∀ c ∈ ws ++ rs, Redoable K c.argv
  file : d.aof.file = encodeAll ws
  caches : d.aof.backup ++ d.aof.cur = given rs
  view : Set.EqOn d.engine.holder.view (Store.ofLog ((ws ++ rs).map Command.argv)) K

theorem Recoverable.written (h : Recoverable K d ws rs) : d.written = encodeAll (ws ++ rs) := by
  rw [Durable.written, h.file, h.caches, AppendableFile.encode_given, encodeAll_append]

/-- A process that starts from a file of whole commands. -/
theorem recoverable_start (hboot : boot.Replaying) (hcs : ∀ c ∈ ws, Redoable K c.argv) :
    Recoverable K (start boot (encodeAll ws)) ws [] := by
  obtain ⟨haof, hsound, hview⟩ := start_redoes hboot hcs (read_encodeAll ws)
  refine ⟨hsound, ?_, by rw [haof], by rw [haof]; rfl, ?_⟩
  · rw [List.append_nil]
    exact hcs
  · rw [List.append_nil]
    exact hview

theorem append_spec {f : AppendableFile} (c : CommandCache)
    (hfit : AppendableFile.StepFits f (.append c)) :
    (f.append c).file = f.file ∧
    (f.append c).backup ++ (f.append c).cur = f.backup ++ f.cur ++ [c] := by
  unfold AppendableFile.append
  by_cases hfull : f.cur.length ≥ f.cacheMaxSize
  · have hb : f.backup = [] := hfit hfull
    simp [hfull, AppendableFile.switch, hb]
  · simp [hfull]

/-- What a turn of the worker writes, and what it leaves for the next one. -/
theorem flush_spec (f : AppendableFile) : ∃ written left,
    f.backup ++ f.cur = written ++ left ∧ f.flush.file = f.file ++ AppendableFile.encode written ∧
      f.flush.backup = [] ∧ f.flush.cur = left ∧ (f.backup = [] → left = []) := by
  cases hb : f.backup with
  | nil =>
      cases hc : f.cur with
      | nil => exact ⟨[], [], by simp [AppendableFile.flush, hb, hc]⟩
      | cons c cs => exact ⟨c :: cs, [], by
          simp [AppendableFile.flush, AppendableFile.switch, AppendableFile.writeBackup, hb, hc]⟩
  | cons b bs => exact ⟨b :: bs, f.cur, by
      simp [AppendableFile.flush, AppendableFile.writeBackup, hb]⟩

/-- A step that changes the engine and appends what it has logged. -/
theorem Recoverable.appendLogged (h : Recoverable K d ws rs) {new : List (List Bytes)}
    (hrec : d.engine.Records K s new) (hfit : d.Appends s) :
    ∃ cs, cs.length ≤ 1 ∧ Recoverable K (d.appendLogged s) ws (rs ++ cs) := by
  have hview : Set.EqOn s.holder.view
      (new.foldl Store.redo (Store.ofLog ((ws ++ rs).map Command.argv))) K :=
    hrec.redoes.view.trans (Store.foldl_redo_congr new h.view)
  rw [appendLogged_of_log hrec.log]
  match new, hrec, hview with
  | [], hrec, hview =>
      refine ⟨[], Nat.zero_le 1, ?_⟩
      rw [List.append_nil]
      exact ⟨hrec.redoes.sound, h.redoable, h.file, h.caches, hview⟩
  | [argv], hrec, hview =>
      have hmem : argv ∈ s.log.drop d.engine.log.length := by
        rw [hrec.log, List.drop_left]
        exact List.mem_singleton_self argv
      obtain ⟨hstep, hargc, hargs⟩ := hfit argv hmem
      have hargv := hrec.redoable argv (List.mem_singleton_self argv)
      have hne : argv ≠ [] := by
        obtain ⟨⟨e, rfl⟩, -⟩ := hargv
        exact List.cons_ne_nil _ _
      obtain ⟨hfile, hcaches⟩ := append_spec (CommandCache.ofArgv argv) hstep
      refine ⟨[⟨argv, hne, hargc, hargs⟩], Nat.le_refl 1, hrec.redoes.sound, ?_, ?_, ?_, ?_⟩
      · intro c hc
        rw [← List.append_assoc] at hc
        rcases List.mem_append.mp hc with hc | hc
        · exact h.redoable c hc
        · rw [List.mem_singleton.mp hc]
          exact hargv
      · exact hfile.trans h.file
      · refine hcaches.trans ?_
        rw [h.caches, given, given, List.map_append]
        rfl
      · rw [← List.append_assoc, List.map_append, Store.ofLog_append]
        exact hview
  | _ :: _ :: _, hrec, _ =>
      have := hrec.short
      simp only [List.length_cons] at this
      omega

/-- A turn of the worker writes some of the commands that wait. -/
theorem Recoverable.flush (h : Recoverable K d ws rs) : ∃ bs cs, rs = bs ++ cs ∧
    Recoverable K { d with aof := d.aof.flush } (ws ++ bs) cs ∧
    d.aof.flush.backup = [] ∧ (d.aof.backup = [] → cs = []) := by
  obtain ⟨written, left, hsplit, hfile, hback, hcur, hnil⟩ := flush_spec d.aof
  obtain ⟨bs, cs, rfl, rfl, rfl⟩ := List.map_eq_append_iff.mp (h.caches.symm.trans hsplit)
  refine ⟨bs, cs, rfl, ⟨h.sound, ?_, ?_, ?_, ?_⟩, hback, fun hb => List.map_eq_nil_iff.mp (hnil hb)⟩
  · rw [List.append_assoc]
    exact h.redoable
  · show d.aof.flush.file = _
    rw [hfile, h.file, encodeAll_append]
    exact congrArg (encodeAll ws ++ ·) (AppendableFile.encode_given bs)
  · show d.aof.flush.backup ++ d.aof.flush.cur = _
    rw [hback, hcur]
    rfl
  · rw [List.append_assoc]
    exact h.view

/-- A destructor that writes both caches leaves the whole log. -/
theorem Recoverable.destroy (h : Recoverable K d ws rs) {lastRound : Bool}
    (hlast : d.aof.backup ≠ [] → d.aof.cur ≠ [] → lastRound = true) :
    (d.aof.destroy lastRound).file = encodeAll (ws ++ rs) := by
  have hin : AppendableFile.InOrder d.aof (given (ws ++ rs)) := by
    rw [AppendableFile.InOrder, List.append_assoc, ← AppendableFile.encode_append,
      AppendableFile.encode_given]
    exact h.written
  rw [(AppendableFile.destroy_file_iff hin lastRound).mpr hlast, AppendableFile.encode_given]

/-! ## Steps -/

/-- The eviction in front of a command is no business of its handler. -/
theorem handler_pressure (op : Opcode) (ctx : Ctx) (s : Engine) (argv : List Bytes) :
    op.handler { ctx with pressure := none } s argv = op.handler ctx s argv := by
  cases op <;> rfl

/-- `HandleCommand` is two steps: the eviction, and the command. -/
theorem step_handleCommand (hok : d.engine.holder.Ok) (ctx : Ctx) {argv : List Bytes} {op : Opcode}
    (hop : opcodeOf argv = some op) :
    (d.step (.pressure ctx)).step (.command ctx argv)
      = d.appendLogged (d.engine.handleCommand ctx argv).1 := by
  have hev : LogsEntries d.engine (d.engine.lazyEviction ctx) := lazyEviction_logs
  obtain ⟨evicted, hevicted, -⟩ := hev
  have hok' : (d.engine.lazyEviction ctx).holder.Ok :=
    (frame_lazyEviction hok : Frame d.engine (d.engine.lazyEviction ctx)).ok
  have hlogs : LogsEntries (d.engine.lazyEviction ctx)
      (op.handler ctx (d.engine.lazyEviction ctx) (op.name :: argv.drop 1)).1 :=
        handler_logs hok' op _
  obtain ⟨new, hnew, -⟩ := hlogs
  have hcommand : (d.engine.handleCommand ctx argv).1
      = (op.handler ctx (d.engine.lazyEviction ctx) (lowered argv)).1 := by
    rw [handleCommand_lazy, hop]
  have hafter : ((d.engine.lazyEviction ctx).handleCommand { ctx with pressure := none } argv).1
      = (op.handler ctx (d.engine.lazyEviction ctx) (lowered argv)).1 := by
    rw [handleCommand_eq _ rfl, hop]
    exact congrArg Prod.fst (handler_pressure op ctx _ _)
  rw [← lowered_eq hop] at hnew
  rw [hcommand, appendLogged_of_log (by rw [hnew, hevicted, List.append_assoc])]
  simp only [step, appendLogged_of_log hevicted, hafter]
  rw [appendLogged_of_log hnew, List.foldl_append]

/-! ## Runs -/

/-- At a moment of the run, `p` was all that had been appended, and the process
was what `p` means to the keys of `K`. -/
def Moment (K : Set Key) (boot : Boot) (hist : List Event) (p : List Command) : Prop :=
  ∃ pre post, hist = pre ++ post ∧ (run boot pre).written = encodeAll p ∧
    Set.EqOn (run boot pre).engine.holder.view (Store.ofLog (p.map Command.argv)) K

/-- One event: what can be found in the file afterwards is the whole of the log,
or could be found in the file before. -/
theorem step_recoverable (h : Recoverable K d ws rs) {ev : Event} (hfit : Fits K d ev) :
    ∃ ws' rs', Recoverable K (d.step ev) ws' rs' ∧
      ∀ p, ws' <+: p → p <+: ws' ++ rs' → p = ws' ++ rs' ∨ (ws <+: p ∧ p <+: ws ++ rs) := by
  have hgrow : ∀ cs : List Command, cs.length ≤ 1 → ∀ p, ws <+: p → p <+: ws ++ (rs ++ cs) →
      p = ws ++ (rs ++ cs) ∨ (ws <+: p ∧ p <+: ws ++ rs) := by
    intro cs hcs p hws hp
    match cs, hcs with
    | [], _ =>
        rw [List.append_nil] at hp
        exact .inr ⟨hws, hp⟩
    | [c], _ =>
        rw [← List.append_assoc] at hp ⊢
        rcases List.prefix_concat_iff.mp hp with hall | hp
        · exact .inl hall
        · exact .inr ⟨hws, hp⟩
  cases ev with
  | pressure ctx =>
      obtain ⟨new, hrec⟩ := lazyEviction_records h.sound hfit.1
      obtain ⟨cs, hcs, hnext⟩ := h.appendLogged hrec hfit.2
      exact ⟨ws, rs ++ cs, hnext, hgrow cs hcs⟩
  | command ctx argv =>
      obtain ⟨hsync, hf, hfits⟩ := hfit
      have hf' : FaithfulOn K d.engine { ctx with pressure := none } argv := hf
      have hsync' : ({ ctx with pressure := none } : Ctx).sync = true := hsync
      obtain ⟨new, hrec⟩ := command_records hsync' h.sound rfl hf'
      obtain ⟨cs, hcs, hnext⟩ := h.appendLogged hrec hfits
      exact ⟨ws, rs ++ cs, hnext, hgrow cs hcs⟩
  | timers now stale =>
      have hr := handleFired_redoes h.sound now stale
      exact ⟨ws, rs, ⟨hr.sound, h.redoable, h.file, h.caches, hr.view.trans h.view⟩,
        fun p hws hp => .inr ⟨hws, hp⟩⟩
  | round =>
      obtain ⟨bs, cs, rfl, hnext, -, -⟩ := h.flush
      refine ⟨ws ++ bs, cs, hnext, fun p hws hp => .inr ⟨(List.prefix_append ws bs).trans hws, ?_⟩⟩
      rwa [List.append_assoc] at hp
  | stop lastRound boot =>
      have hstart := recoverable_start hfit.2 h.redoable
      rw [← h.destroy hfit.1] at hstart
      refine ⟨ws ++ rs, [], hstart, fun p hws hp => .inl ?_⟩
      rw [List.append_nil] at hp ⊢
      exact hp.eq_of_length_le hws.length_le
  | crash boot =>
      have hws : ∀ c ∈ ws, Redoable K c.argv :=
        fun c hc => h.redoable c (List.mem_append_left rs hc)
      have hstart := recoverable_start hfit hws
      rw [← h.file] at hstart
      refine ⟨ws, [], hstart, fun p hws hp => .inl ?_⟩
      rw [List.append_nil] at hp ⊢
      exact hp.eq_of_length_le hws.length_le

/-- In every run, and whatever is left of the commands that wait: what the file
then holds is what the process was at a moment of the run. -/
theorem run_recoverable (hboot : boot.Replaying) {events : List Event}
    (hfits : Guarded step (Fits K) (start boot []) events) :
    ∃ ws rs, Recoverable K (run boot events) ws rs ∧
      ∀ p, ws <+: p → p <+: ws ++ rs → Moment K boot events p := by
  have hnone : ∀ c ∈ ([] : List Command), Redoable K c.argv := fun c hc => by cases hc
  have hstart : Recoverable K (start boot []) [] [] := recoverable_start hboot hnone
  refine Guarded.history (P := fun hist => ∃ ws rs, Recoverable K (run boot hist) ws rs ∧
      ∀ p, ws <+: p → p <+: ws ++ rs → Moment K boot hist p) ?_ events [] ?_ hfits
  · rintro hist ev ⟨ws, rs, hrec, hmoment⟩ hfit
    obtain ⟨ws', rs', hrec', hold⟩ := step_recoverable hrec hfit
    have hrun : run boot (hist ++ [ev]) = (run boot hist).step ev := by
      rw [run, List.foldl_append]
      rfl
    rw [← hrun] at hrec'
    refine ⟨ws', rs', hrec', fun p hws hp => ?_⟩
    rcases hold p hws hp with rfl | ⟨hws, hp⟩
    · exact ⟨hist ++ [ev], [], (List.append_nil _).symm, hrec'.written, hrec'.view⟩
    · obtain ⟨pre, post, rfl, hwritten, hview⟩ := hmoment p hws hp
      exact ⟨pre, post ++ [ev], List.append_assoc _ _ _, hwritten, hview⟩
  · refine ⟨[], [], hstart, fun p _ hp => ?_⟩
    rw [List.prefix_nil.mp hp]
    exact ⟨[], [], rfl, hstart.written, hstart.view⟩

/-- The server that gets its commands, at time 0. -/
def served (argv : List Bytes) : Event := .command { calm with sync := true } argv

/-- Two keys, an expiration of the second one, and a turn of the worker in
between. -/
def sampleEvents : List Event :=
  [served [ascii "set", [97], [120]], served [ascii "rpush", [98], [121]], .round,
    served [ascii "expire", [98], ascii "5"]]

/-- A process with room for two commands. -/
def sampleBoot : Boot := ⟨2, fun _ => calm⟩

theorem sampleBoot_replaying : sampleBoot.Replaying := fun _ => ⟨rfl, rfl⟩

/-- The first key never expires. -/
theorem sampleEvents_fit :
    Guarded step (Fits {.ofStdString [97]}) (start sampleBoot []) sampleEvents := by
  have hfaithful : ∀ (s : Engine) (argv : List Bytes) (op : Opcode), opcodeOf argv = some op →
      op = .set ∨ op = .rpush →
      FaithfulOn {.ofStdString [97]} s { calm with sync := true } argv := by
    intro s argv op hop hop' op' hop''
    obtain rfl : op = op' := Option.some.inj (hop.symm.trans hop'')
    rcases hop' with rfl | rfl
    · rintro - ⟨-, left, hl, -⟩
      cases hl
    · rintro - ⟨-, left, hl, -⟩
      cases hl
  refine ⟨⟨rfl, hfaithful _ _ .set (by decide +kernel) (.inl rfl), by decide +kernel⟩,
    ⟨rfl, hfaithful _ _ .rpush (by decide +kernel) (.inr rfl), by decide +kernel⟩, trivial,
    ⟨rfl, fun op hop => ?_, by decide +kernel⟩, trivial⟩
  have hexpire : opcodeOf [ascii "expire", [98], ascii "5"] = some .expire := by decide +kernel
  obtain rfl : Opcode.expire = op := Option.some.inj (hexpire.symm.trans hop)
  show keyOf [ascii "expire", [98], ascii "5"] ∉ ({.ofStdString [97]} : Set Key)
  rw [Set.mem_singleton_iff]
  decide +kernel

/-- **A process that is stopped is found again.** In every run of commands,
timers, turns of the worker, stops and crashes, the process that starts after
the destructor has what the process before it had, for all the keys that never
get an expiration. -/
theorem run_stop (K : Set Key) (boot : Boot) (hboot : boot.Replaying) (events : List Event)
    (hfits : Guarded step (Fits K) (start boot []) events) (lastRound : Bool) (next : Boot)
    (hstop : Fits K (run boot events) (.stop lastRound next)) :
    Set.EqOn ((run boot events).step (.stop lastRound next)).engine.holder.view
      (run boot events).engine.holder.view K := by
  obtain ⟨ws, rs, hrec, -⟩ := run_recoverable hboot hfits
  have hstart := recoverable_start hstop.2 hrec.redoable
  rw [← hrec.destroy hstop.1] at hstart
  have hview := hstart.view
  rw [List.append_nil] at hview
  exact hview.trans hrec.view.symm

theorem run_stop_sample :
    Set.EqOn ((run sampleBoot sampleEvents).step (.stop true sampleBoot)).engine.holder.view
      (run sampleBoot sampleEvents).engine.holder.view {.ofStdString [97]} :=
  run_stop {.ofStdString [97]} sampleBoot sampleBoot_replaying sampleEvents sampleEvents_fit true
    sampleBoot ⟨fun _ _ => rfl, sampleBoot_replaying⟩

/-- **A process that is killed is found again as it was at some moment**, and at
that moment all that was in the file had been appended. This is so wherever the
worker was in its flush: after any number of bytes. -/
theorem run_crash (K : Set Key) (boot : Boot) (hboot : boot.Replaying) (events : List Event)
    (hfits : Guarded step (Fits K) (start boot []) events) (next : Boot) (hnext : next.Replaying)
    (n : Nat) (hn : (run boot events).aof.file.length ≤ n) :
    ∃ pre post, events = pre ++ post ∧ (run boot events).aof.file <+: (run boot pre).written ∧
      Set.EqOn (start next ((run boot events).aof.flush.file.take n)).engine.holder.view
        (run boot pre).engine.holder.view K := by
  obtain ⟨ws, rs, hrec, hmoment⟩ := run_recoverable hboot hfits
  obtain ⟨bs, cs, rfl, hflush, -, -⟩ := hrec.flush
  have hfile : (run boot events).aof.flush.file = encodeAll (ws ++ bs) := hflush.file
  obtain ⟨done, rest, m, hsplit, hread, hm, hpart⟩ :=
    commonOperation_prefix (by decide : 0 < restoreAofReadBufSize)
      (List.take_prefix n (encodeAll (ws ++ bs)))
  -- the incomplete command is none of those that were in the file before
  have hws : ws <+: done := by
    rcases List.prefix_or_prefix_of_prefix (List.prefix_append ws bs)
      (hsplit ▸ List.prefix_append done rest) with h | ⟨c, hc⟩
    · exact h
    · cases c with
      | nil => rw [← hc, List.append_nil]
      | cons c c' =>
          have hlen : n ≥ (encodeAll ws).length := hrec.file ▸ hn
          have hrest : rest = c :: c' ++ bs := by
            rw [← hc, List.append_assoc] at hsplit
            exact (List.append_cancel_left hsplit).symm
          have hlt := hpart c (by rw [hrest]; rfl)
          rw [← hc, encodeAll_append, encodeAll_cons, List.length_append,
            List.length_append] at hlen
          rw [List.length_take, encodeAll_append, ← hc, encodeAll_append, encodeAll_cons] at hm
          simp only [List.length_append] at hm
          omega
  have hdone : done <+: ws ++ (bs ++ cs) := by
    rw [← List.append_assoc, hsplit, List.append_assoc]
    exact List.prefix_append done _
  obtain ⟨pre, post, hpre, hwritten, hview⟩ := hmoment done hws hdone
  refine ⟨pre, post, hpre, ?_, ?_⟩
  · rw [hwritten, hrec.file]
    obtain ⟨t, rfl⟩ := hws
    rw [encodeAll_append]
    exact List.prefix_append _ _
  · rw [hfile]
    have hredo : ∀ c ∈ done, Redoable K c.argv := fun c hc => hrec.redoable c (hdone.subset hc)
    exact (start_redoes hnext hredo hread).2.2.trans hview.symm

/-- Three bytes of what is left to be written. -/
theorem run_crash_sample :
    ∃ pre post, sampleEvents = pre ++ post ∧
      (run sampleBoot sampleEvents).aof.file <+: (run sampleBoot pre).written ∧
      Set.EqOn (start sampleBoot ((run sampleBoot sampleEvents).aof.flush.file.take
          ((run sampleBoot sampleEvents).aof.file.length + 3))).engine.holder.view
        (run sampleBoot pre).engine.holder.view {.ofStdString [97]} :=
  run_crash {.ofStdString [97]} sampleBoot sampleBoot_replaying sampleEvents sampleEvents_fit
    sampleBoot sampleBoot_replaying ((run sampleBoot sampleEvents).aof.file.length + 3) (by omega)

/-- **Two turns of the worker in a row lose nothing to a crash.** -/
theorem run_settles (K : Set Key) (boot : Boot) (hboot : boot.Replaying) (events : List Event)
    (hfits : Guarded step (Fits K) (start boot []) events) (next : Boot) (hnext : next.Replaying) :
    Set.EqOn (run boot (events ++ [.round, .round, .crash next])).engine.holder.view
      (run boot events).engine.holder.view K := by
  obtain ⟨ws, rs, hrec, -⟩ := run_recoverable hboot hfits
  obtain ⟨bs, cs, rfl, hone, hback, -⟩ := hrec.flush
  obtain ⟨bs', cs', rfl, htwo, -, hnil⟩ := hone.flush
  have hcs' : cs' = [] := hnil hback
  rw [hcs'] at htwo
  have hstart := recoverable_start hnext fun c hc =>
    htwo.redoable c (List.mem_append_left [] hc)
  rw [← htwo.file] at hstart
  have hrun : run boot (events ++ [.round, .round, .crash next])
      = start next (run boot events).aof.flush.flush.file := by
    rw [run, List.foldl_append]
    rfl
  have hview := hrec.view
  rw [hrun]
  refine hstart.view.trans (Set.EqOn.symm ?_)
  rw [hcs', List.append_nil] at hview
  rw [List.append_nil, List.append_assoc]
  exact hview

theorem run_settles_sample :
    Set.EqOn
      (run sampleBoot (sampleEvents ++ [.round, .round, .crash sampleBoot])).engine.holder.view
      (run sampleBoot sampleEvents).engine.holder.view {.ofStdString [97]} :=
  run_settles {.ofStdString [97]} sampleBoot sampleBoot_replaying sampleEvents sampleEvents_fit
    sampleBoot sampleBoot_replaying

end Durable

end LiteKV
