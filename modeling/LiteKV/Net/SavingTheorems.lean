/-
LiteKV.Net.SavingTheorems — what is in the dump, at every moment.

`Child.act_acts` is one step of a child whose file nobody else writes, and `Inv`
what the steps keep: the dump is the old one or that of a `bgsave`, and the one
child at work has its file to itself. What a child puts into the file once a write
has failed is not determined, and `Inv` says nothing of it. `run_saves` follows for
every run in which no `bgsave` finds a child at work; what the loader makes of the
file (`run_reloads`) is `load_snapshot`.

`overlap_tears` is what the condition is for: two children share one file.
-/
import LiteKV.Net.Saving

namespace LiteKV

open Lib.Run

theorem tmpDst_ne (dst : Bytes) : tmpDst dst ≠ dst := by
  intro h
  have hlen := congrArg List.length h
  rw [tmpDst, List.length_append] at hlen
  have htmp : (ascii "tmp_").length = 4 := by decide
  omega

/-! ## Files -/

namespace Disk

section

variable {d : Disk} {dst name : Bytes} {i : Nat}

/-- What is put into a file is not seen under the name of another. -/
theorem read_other {names : Bytes → Option Nat} (hn : names name = d.names name)
    (h : d.names name ≠ some i) (content : Bytes) (next : Nat) :
    (⟨names, Function.update d.data i content, next⟩ : Disk).read name = d.read name := by
  unfold read
  dsimp only
  rw [hn]
  cases hname : d.names name with
  | none => rfl
  | some j =>
      have hij : j ≠ i := fun hji => h (by rw [hname, hji])
      rw [Option.map_some, Option.map_some, Function.update_of_ne hij]

theorem write_read (h : d.names name ≠ some i) (pos : Nat) (bytes : Bytes) :
    (d.write i pos bytes).read name = d.read name :=
  read_other rfl h _ _

/-- A write at the end of a file. -/
theorem write_data {pos : Nat} (h : (d.data i).length = pos) (bytes : Bytes) :
    (d.write i pos bytes).data i = d.data i ++ bytes := by
  subst h
  simp [write]

/-- The file that is written anew is the one of its name, and empty. -/
theorem openTrunc_spec (h : d.Apart dst) :
    (d.openTrunc (tmpDst dst)).1.Apart dst ∧
    (d.openTrunc (tmpDst dst)).1.names (tmpDst dst) = some (d.openTrunc (tmpDst dst)).2 ∧
    (d.openTrunc (tmpDst dst)).1.data (d.openTrunc (tmpDst dst)).2 = [] ∧
    (d.openTrunc (tmpDst dst)).1.read dst = d.read dst := by
  have hne := tmpDst_ne dst
  unfold openTrunc
  split
  · rename_i i hi
    exact ⟨⟨h.apart, h.old⟩, hi, Function.update_self _ _ _, read_other rfl (h.apart i hi) _ _⟩
  · have hnew : d.names dst ≠ some d.next := fun hd => Nat.lt_irrefl _ (h.old dst _ hd)
    refine ⟨⟨fun i hi => ?_, fun name i hi => ?_⟩, Function.update_self _ _ _,
      Function.update_self _ _ _, read_other (Function.update_of_ne hne.symm _ _) hnew _ _⟩
    · -- the number is new
      dsimp only at hi ⊢
      rw [Function.update_self, Option.some.injEq] at hi
      rw [Function.update_of_ne hne.symm, ← hi]
      exact hnew
    · dsimp only at hi ⊢
      rw [Function.update_apply] at hi
      split at hi
      · cases hi
        exact Nat.lt_succ_self _
      · exact Nat.lt_succ_of_lt (h.old name i hi)

/-- The file gets the name of the dump, and its own is free. -/
theorem rename_spec (h : d.Apart dst) (hi : d.names (tmpDst dst) = some i) :
    ∃ d', d.rename (tmpDst dst) dst = some d' ∧ d'.Apart dst ∧ d'.read dst = some (d.data i) := by
  have hne := tmpDst_ne dst
  refine ⟨_, by rw [rename, hi]; rfl, ⟨fun j hj => ?_, fun name j hj => ?_⟩, ?_⟩
  · dsimp only at hj
    rw [Function.update_of_ne hne, Function.update_self] at hj
    cases hj
  · dsimp only at hj ⊢
    rw [Function.update_apply, Function.update_apply] at hj
    split at hj
    · cases hj
      exact h.old _ _ hi
    · split at hj
      · cases hj
      · exact h.old name j hj
  · unfold read
    dsimp only
    rw [Function.update_self]
    rfl

theorem unlink_spec (h : d.Apart dst) :
    (d.unlink (tmpDst dst)).Apart dst ∧ (d.unlink (tmpDst dst)).read dst = d.read dst := by
  refine ⟨⟨fun i hi => ?_, fun name i hi => ?_⟩, ?_⟩
  · simp [unlink] at hi
  · simp only [unlink, Function.update_apply] at hi
    split at hi
    · cases hi
    · exact h.old name i hi
  · simp [unlink, read, Function.update_of_ne (tmpDst_ne dst).symm]

end

end Disk

/-! ## A child -/

namespace Child

/-- The file of a child is the temporary one, and holds what the child has written. -/
structure Writes (dst : Bytes) (d : Disk) (c : Child) : Prop where
  start : c.file = none → c.pos = 0
  file : ∀ i, c.file = some i → d.names (tmpDst dst) = some i
  data : ∀ i, c.file = some i → c.bad = false →
    d.data i = c.bytes.take c.pos ∧ c.pos ≤ c.bytes.length

/-- The bytes of a child, unless a write of it has failed. -/
def Content (c : Child) (file : Option Bytes) : Prop := c.bad = false → file = some c.bytes

variable {dst : Bytes} {d : Disk} {c : Child}

/-- What a step of a child does to the files: the dump stays, or it is the child's. -/
structure Acts (dst : Bytes) (d : Disk) (c : Child) (act : Act) (r : Disk × Option Child) :
    Prop where
  apart : r.1.Apart dst
  writes : ∀ c', r.2 = some c' → c'.bytes = c.bytes ∧ c'.Writes dst r.1 ∧
    (c'.bad = c.bad ∨ act = .writeFails)
  dump : r.1.read dst = d.read dst ∨ c.Content (r.1.read dst)

variable {act : Act}

theorem act_stays (hd : d.Apart dst) (hc : c.Writes dst d) : Acts dst d c act (d, some c) :=
  ⟨hd, fun _ h => Option.some.inj h ▸ ⟨rfl, hc, .inl rfl⟩, .inl rfl⟩

theorem act_exits {d' : Disk} (hd' : d'.Apart dst) (hread : d'.read dst = d.read dst) :
    Acts dst d c act (d', none) :=
  ⟨hd', nofun, .inl hread⟩

/-- A write behind those of the child. -/
theorem act_writes (hd : d.Apart dst) (hc : c.Writes dst d) {i : Nat} (hfile : c.file = some i)
    {bytes : Bytes} (hbytes : c.bad = false → bytes <+: c.bytes.drop c.pos) :
    Acts dst d c act (d.write i c.pos bytes, some { c with pos := c.pos + bytes.length }) := by
  have hname := hc.file i hfile
  refine ⟨⟨hd.apart, hd.old⟩, fun c' h => ?_, .inl (Disk.write_read (hd.apart i hname) _ _)⟩
  cases h
  have hopen : c.file ≠ none := by
    rw [hfile]
    exact Option.some_ne_none i
  refine ⟨rfl, ⟨fun hf => absurd hf hopen, hc.file, fun j hj hbad => ?_⟩, .inl rfl⟩
  cases hfile.symm.trans hj
  obtain ⟨hdata, hpos⟩ := hc.data i hfile hbad
  have hlen : (d.data i).length = c.pos := by
    rw [hdata, List.length_take, Nat.min_eq_left hpos]
  have hfits := (hbytes hbad).length_le
  rw [List.length_drop] at hfits
  refine ⟨?_, by dsimp only; omega⟩
  dsimp only
  rw [Disk.write_data hlen, hdata, List.take_add, ← List.prefix_iff_eq_take.mp (hbytes hbad)]

/-- One step of a child whose file nobody else writes. -/
theorem act_acts (hd : d.Apart dst) (hc : c.Writes dst d) (act : Act) :
    Acts dst d c act (c.act dst d act) := by
  cases act with
  | openFile ok =>
      dsimp only [Child.act]
      split
      · exact act_stays hd hc
      · rename_i hfile
        split
        · obtain ⟨hapart, hname, hdata, hread⟩ := Disk.openTrunc_spec hd
          refine ⟨hapart, fun c' h => ?_, .inl hread⟩
          cases h
          have hpos : c.pos = 0 := hc.start hfile
          refine ⟨rfl, ⟨nofun, fun i hi => ?_, fun i hi _ => ?_⟩, .inl rfl⟩
          · cases hi
            exact hname
          · cases hi
            dsimp only
            rw [hdata, hpos, List.take_zero]
            exact ⟨rfl, Nat.zero_le _⟩
        · exact act_exits hd rfl
  | write n =>
      dsimp only [Child.act]
      split
      · exact act_stays hd hc
      · rename_i i hfile
        split
        · exact act_stays hd hc
        · exact act_writes hd hc hfile fun _ => List.take_prefix _ _
  | writeFails =>
      refine ⟨hd, fun c' h => ?_, .inl rfl⟩
      cases h
      exact ⟨rfl,
        ⟨hc.start, hc.file, fun i hi hbad => hc.data i hi (Bool.or_eq_false_iff.mp hbad).1⟩,
        .inr rfl⟩
  | flushes bytes =>
      dsimp only [Child.act]
      split
      · exact act_stays hd hc
      · rename_i i hfile
        split
        · rename_i hbad
          exact act_writes hd hc hfile fun h => absurd (hbad.symm.trans h) Bool.noConfusion
        · exact act_stays hd hc
  | rename ok =>
      dsimp only [Child.act]
      split
      · rename_i hdone
        rw [Bool.and_eq_true, Option.isSome_iff_exists] at hdone
        obtain ⟨⟨i, hfile⟩, hend⟩ := hdone
        have hname := hc.file i hfile
        obtain ⟨hunlink, hkept⟩ := Disk.unlink_spec hd
        cases ok with
        | false => exact act_exits hunlink hkept
        | true =>
            obtain ⟨d', hrename, hd', hread⟩ := Disk.rename_spec hd hname
            rw [if_pos rfl, hrename]
            refine ⟨hd', nofun, .inr fun hbad => ?_⟩
            -- a child that has not failed is at the end
            rw [hbad, Bool.false_or, decide_eq_true_eq] at hend
            rw [hread, (hc.data i hfile hbad).1, hend, List.take_length]
      · exact act_stays hd hc
  | killed => exact act_exits hd rfl

end Child

/-! ## Runs -/

namespace Saving

/-- A `bgsave` of the run has forked a child of this pid with these bytes to
write; where `bad` is set, a write has failed since. -/
def Forked (dst : Bytes) (sv : Saving) (events : List SavingEvent) (pid : Nat) (bytes : Bytes)
    (bad : Bool) : Prop :=
  ∃ pre order post, events = pre ++ .bgsave (some pid) order :: post ∧
    bytes = (sv.run dst pre).engine.dump (order _) ∧
    (bad = true → .child pid .writeFails ∈ post)

section

variable {dst : Bytes} {sv : Saving} {events : List SavingEvent} {pid : Nat} {bytes : Bytes}
  {bad : Bool}

theorem Forked.append (h : Forked dst sv events pid bytes bad) (later : List SavingEvent) :
    Forked dst sv (events ++ later) pid bytes bad := by
  obtain ⟨pre, order, post, rfl, hbytes, hbad⟩ := h
  exact ⟨pre, order, post ++ later, by simp, hbytes, fun h => List.mem_append_left _ (hbad h)⟩

theorem Forked.fails (h : Forked dst sv events pid bytes bad) (bad' : Bool) :
    Forked dst sv (events ++ [.child pid .writeFails]) pid bytes bad' := by
  obtain ⟨pre, order, post, rfl, hbytes, -⟩ := h
  exact ⟨pre, order, post ++ [.child pid .writeFails], by simp, hbytes,
    fun _ => List.mem_append_right _ (List.mem_singleton_self _)⟩

end

variable {dst : Bytes} {sv : Saving} {before : Option Bytes} {forked : Nat → Bytes → Bool → Prop}

/-- The dump is the old one or one of the process's, and at most one child is at
work on the next. -/
structure Inv (dst : Bytes) (before : Option Bytes) (forked : Nat → Bytes → Bool → Prop)
    (sv : Saving) : Prop where
  dump : sv.disk.read dst = before ∨
    ∃ (p : Nat) (c : Child), forked p c.bytes c.bad ∧ c.Content (sv.disk.read dst)
  apart : sv.disk.Apart dst
  alone : ∀ p q, sv.child p ≠ none → sv.child q ≠ none → p = q
  child : ∀ p c, sv.child p = some c → forked p c.bytes c.bad ∧ c.Writes dst sv.disk

theorem Inv.mono (h : Inv dst before forked sv) {forked' : Nat → Bytes → Bool → Prop}
    (hf : ∀ p bytes bad, forked p bytes bad → forked' p bytes bad) :
    Inv dst before forked' sv where
  dump := h.dump.imp_right fun ⟨p, c, hc, hread⟩ => ⟨p, c, hf _ _ _ hc, hread⟩
  apart := h.apart
  alone := h.alone
  child p c hc := ⟨hf _ _ _ (h.child p c hc).1, (h.child p c hc).2⟩

theorem step_child {pid : Nat} {c : Child} (h : sv.child pid = some c) (act : Child.Act) :
    sv.step dst (.child pid act) = ⟨sv.engine, (c.act dst sv.disk act).1,
      Function.update sv.child pid (c.act dst sv.disk act).2⟩ := by
  rw [step, h]

theorem step_bgsave (hdst : dst ≠ []) (pid : Nat) (order : ∀ h, IterationOrder h) :
    sv.step dst (.bgsave (some pid) order) = ⟨sv.engine, sv.disk,
      Function.update sv.child pid (some ⟨sv.engine.dump (order _), none, 0, false⟩)⟩ := by
  rw [step, liteKVBackgroundSave, if_neg hdst]

theorem Inv.serve (h : Inv dst before forked sv) (ev : Event) :
    Inv dst before forked (sv.step dst (.serve ev)) :=
  ⟨h.dump, h.apart, h.alone, h.child⟩

/-- A child that is forked has written nothing. -/
theorem Inv.bgsave (h : Inv dst before forked sv) (hnone : ∀ p, sv.child p = none)
    (fork : Option Nat) (order : ∀ h, IterationOrder h)
    (hf : ∀ pid, fork = some pid → forked pid (sv.engine.dump (order _)) false) :
    Inv dst before forked (sv.step dst (.bgsave fork order)) := by
  dsimp only [step, liteKVBackgroundSave]
  split
  · exact h
  · cases fork with
    | none => exact h
    | some pid =>
        have hone : ∀ p, Function.update sv.child pid
            (some (⟨sv.engine.dump (order _), none, 0, false⟩ : Child)) p ≠ none → p = pid := by
          intro p hp
          by_contra hne
          exact hp ((Function.update_of_ne hne _ _).trans (hnone p))
        refine ⟨h.dump, h.apart, fun p q hp hq => (hone p hp).trans (hone q hq).symm,
          fun p c hc => ?_⟩
        have hp : p = pid := hone p (by
          dsimp only at hc ⊢
          rw [hc]
          exact Option.some_ne_none c)
        subst hp
        dsimp only at hc
        rw [Function.update_self] at hc
        cases hc
        exact ⟨hf p rfl, ⟨fun _ => rfl, nofun, nofun⟩⟩

theorem Inv.act (h : Inv dst before forked sv) {forked' : Nat → Bytes → Bool → Prop} (pid : Nat)
    (act : Child.Act) (hf : ∀ p bytes bad, forked p bytes bad → forked' p bytes bad)
    (hfails : act = .writeFails → ∀ bytes bad bad', forked pid bytes bad → forked' pid bytes bad') :
    Inv dst before forked' (sv.step dst (.child pid act)) := by
  cases hc : sv.child pid with
  | none =>
      rw [step, hc]
      exact h.mono hf
  | some c =>
      rw [step_child hc]
      obtain ⟨hforked, hwrites⟩ := h.child pid c hc
      have hacts := Child.act_acts h.apart hwrites act
      -- no other child is at work
      have hother : ∀ p, p ≠ pid → sv.child p = none := by
        intro p hp
        by_contra hne
        exact hp (h.alone p pid hne (by rw [hc]; exact Option.some_ne_none c))
      have hone : ∀ p c', Function.update sv.child pid (c.act dst sv.disk act).2 p = some c' →
          p = pid ∧ (c.act dst sv.disk act).2 = some c' := by
        intro p c' hp
        by_cases hpp : p = pid
        · subst hpp
          rw [Function.update_self] at hp
          exact ⟨rfl, hp⟩
        · rw [Function.update_of_ne hpp, hother p hpp] at hp
          cases hp
      refine ⟨?_, hacts.apart, fun p q hp hq => ?_, fun p c' hp => ?_⟩
      · rcases hacts.dump with hsame | hnew
        · dsimp only
          rw [hsame]
          exact (h.mono hf).dump
        · exact .inr ⟨pid, c, hf _ _ _ hforked, hnew⟩
      · obtain ⟨cp, hcp⟩ := Option.ne_none_iff_exists'.mp hp
        obtain ⟨cq, hcq⟩ := Option.ne_none_iff_exists'.mp hq
        exact (hone p cp hcp).1.trans (hone q cq hcq).1.symm
      · obtain ⟨rfl, hnext⟩ := hone p c' hp
        obtain ⟨hbytes, hwrites', hbad | hact⟩ := hacts.writes c' hnext
        · rw [hbytes, hbad]
          exact ⟨hf _ _ _ hforked, hwrites'⟩
        · rw [hbytes]
          exact ⟨hfails hact _ _ _ hforked, hwrites'⟩

/-- One event, behind those of a run. -/
theorem inv_step (hist : List SavingEvent) (ev : SavingEvent)
    (h : Inv dst before (Forked dst sv hist) (sv.run dst hist))
    (halone : (sv.run dst hist).Alone ev) :
    Inv dst before (Forked dst sv (hist ++ [ev])) (sv.run dst (hist ++ [ev])) := by
  have hlater : ∀ p bytes bad, Forked dst sv hist p bytes bad →
      Forked dst sv (hist ++ [ev]) p bytes bad := fun _ _ _ hf => hf.append [ev]
  have hsnoc : sv.run dst (hist ++ [ev]) = (sv.run dst hist).step dst ev := by
    rw [run, List.foldl_append, List.foldl_cons, List.foldl_nil]
    rfl
  rw [hsnoc]
  cases ev with
  | serve ev => exact (h.mono hlater).serve ev
  | bgsave fork order =>
      refine (h.mono hlater).bgsave halone fork order fun pid hfork => ?_
      subst hfork
      exact ⟨hist, order, [], rfl, rfl, nofun⟩
  | child pid act =>
      refine h.act pid act hlater fun hact bytes bad bad' hf => ?_
      subst hact
      exact hf.fails bad'

/-- Before the first event. -/
theorem inv_start (hd : sv.disk.Apart dst) (hnone : ∀ p, sv.child p = none) :
    Inv dst (sv.disk.read dst) forked sv := by
  refine ⟨.inl rfl, hd, fun p _ hp => absurd (hnone p) hp, fun p c hc => ?_⟩
  rw [hnone p] at hc
  cases hc

theorem run_inv (hd : sv.disk.Apart dst) (hnone : ∀ p, sv.child p = none)
    {events : List SavingEvent} (h : Guarded (step dst) Alone sv events) :
    Inv dst (sv.disk.read dst) (Forked dst sv events) (sv.run dst events) :=
  Guarded.history (P := fun hist => Inv dst (sv.disk.read dst) (Forked dst sv hist)
    (sv.run dst hist)) inv_step events [] (inv_start hd hnone) h

/-! ## A run with one save -/

/-- See `savedEvents`. -/
def dumpFile : Bytes := ascii "dump.lkvdb"

/-- A process that has just started, and no files. -/
def started : Saving := ⟨.new, ⟨fun _ => none, fun _ => [], 0⟩, fun _ => none⟩

/-- `set a b`. -/
def setEvent : SavingEvent := .serve (.command calm [ascii "set", ascii "a", ascii "b"])

/-- A key is set and saved. -/
def savedEvents : List SavingEvent :=
  [setEvent, .bgsave (some 7) .ofBuckets, .child 7 (.openFile true), .child 7 (.write 99),
    .child 7 (.rename true)]

theorem started_apart : started.disk.Apart dumpFile :=
  ⟨nofun, nofun⟩

theorem savedEvents_dump : (started.run dumpFile savedEvents).disk.read dumpFile
    ≠ started.disk.read dumpFile := by decide +kernel

theorem savedEvents_whole : Whole savedEvents := by
  intro pid hm
  simp [savedEvents, setEvent] at hm

theorem savedEvents_loads :
    Guarded (step dumpFile) (fun sv ev => sv.Alone ev ∧ sv.Loads ev) started savedEvents := by
  have hfits : (started.step dumpFile setEvent).engine.holder.FitsSize := by decide +kernel
  have hall : ∀ e ∈ (started.step dumpFile setEvent).engine.holder.bucket.flatten,
      e.2.payload.objectType ≤ 2 := by decide +kernel
  refine ⟨⟨trivial, trivial⟩, ⟨fun _ => rfl, hfits, fun k v hv => ?_⟩, ⟨trivial, trivial⟩,
    ⟨trivial, trivial⟩, ⟨trivial, trivial⟩, trivial⟩
  obtain ⟨e, he, rfl⟩ := mem_of_view hv
  have hty := hall e he
  cases hp : e.2.payload with
  | int n => exact trivial
  | string s => exact trivial
  | _ => rw [hp] at hty; exact absurd hty (by simp only [Payload.objectType]; decide)

/-! ## What is in the dump -/

/-- **The dump is replaced at once**: whatever is served meanwhile, and wherever a
child is killed, the file is the one from before the run or the whole dump of the
store of one `bgsave`, unless a write of that child has failed. -/
theorem run_saves (hd : sv.disk.Apart dst) (hnone : ∀ p, sv.child p = none)
    {events : List SavingEvent} (h : Guarded (step dst) Alone sv events) :
    (sv.run dst events).disk.read dst = sv.disk.read dst ∨
      ∃ pre pid order post, events = pre ++ .bgsave (some pid) order :: post ∧
        ((sv.run dst events).disk.read dst = some ((sv.run dst pre).engine.dump (order _)) ∨
          .child pid .writeFails ∈ post) := by
  refine (run_inv hd hnone h).dump.imp_right ?_
  rintro ⟨pid, c, ⟨pre, order, post, hevents, hbytes, hbad⟩, hread⟩
  refine ⟨pre, pid, order, post, hevents, ?_⟩
  cases hc : c.bad with
  | false => exact .inl (hbytes ▸ hread hc)
  | true => exact .inr (hbad hc)

theorem run_saves_sample : ∃ pre pid order post,
    savedEvents = pre ++ .bgsave (some pid) order :: post ∧
    ((started.run dumpFile savedEvents).disk.read dumpFile
        = some ((started.run dumpFile pre).engine.dump (order _)) ∨
      .child pid .writeFails ∈ post) :=
  (run_saves started_apart (fun _ => rfl) (by
    have h := savedEvents_loads
    rw [guarded_iff_forall] at h ⊢
    exact fun pre ev post hev => (h pre ev post hev).1)).resolve_left savedEvents_dump

/-- The children and the files have no part in what is served. -/
theorem step_engine (dst : Bytes) (sv : Saving) (ev : SavingEvent) :
    (sv.step dst ev).engine = sv.engine ∨ ∃ e, (sv.step dst ev).engine = sv.engine.step e := by
  cases ev with
  | serve e => exact .inr ⟨e, rfl⟩
  | bgsave fork order =>
      left
      dsimp only [step, liteKVBackgroundSave]
      split
      · rfl
      · cases fork with
        | none => rfl
        | some pid => rfl
  | child pid act =>
      left
      dsimp only [step]
      cases sv.child pid with
      | none => rfl
      | some c => rfl

theorem run_engine (dst : Bytes) (events : List SavingEvent) : ∀ (sv : Saving),
    sv.engine.holder.Ok → sv.engine.expiresCore = [] →
    (sv.run dst events).engine.holder.Ok ∧ (sv.run dst events).engine.expiresCore = [] := by
  induction events with
  | nil => exact fun sv hok hc => ⟨hok, hc⟩
  | cons ev events ih =>
      intro sv hok hc
      have hstep :
          (sv.step dst ev).engine.holder.Ok ∧ (sv.step dst ev).engine.expiresCore = [] := by
        rcases step_engine dst sv ev with hsame | ⟨e, hserve⟩
        · rw [hsame]
          exact ⟨hok, hc⟩
        · obtain ⟨hok', hc'⟩ := step_core hok e
          rw [hserve]
          exact ⟨hok', hc'.trans hc⟩
      exact ih _ hstep.1 hstep.2

/-- **A process that starts from the dump has the store of a `bgsave`**: when the
store can be loaded at every `bgsave` and no write fails, the file is the one from
before the run, or the loader makes of it the store that one `bgsave` found. -/
theorem run_reloads (hd : sv.disk.Apart dst) (hnone : ∀ p, sv.child p = none)
    (hok : sv.engine.holder.Ok) (hcore : sv.engine.expiresCore = []) {events : List SavingEvent}
    (h : Guarded (step dst) (fun sv ev => sv.Alone ev ∧ sv.Loads ev) sv events)
    (hwhole : Whole events) :
    (sv.run dst events).disk.read dst = sv.disk.read dst ∨
      ∃ pre pid order post content, events = pre ++ .bgsave (some pid) order :: post ∧
        (sv.run dst events).disk.read dst = some content ∧
        ∀ now, (liteKVLoad content now .new).2 = true ∧
          (liteKVLoad content now .new).1.holder.view = (sv.run dst pre).engine.holder.view := by
  have halone := h
  rw [guarded_iff_forall] at halone
  have hsaves := run_saves hd hnone ((guarded_iff_forall events sv).mpr fun pre ev post hev =>
    (halone pre ev post hev).1)
  refine hsaves.imp_right ?_
  rintro ⟨pre, pid, order, post, hevents, hread | hfails⟩
  swap
  · refine absurd ?_ (hwhole pid)
    rw [hevents]
    exact List.mem_append_right _ (List.mem_cons_of_mem _ hfails)
  refine ⟨pre, pid, order, post, _, hevents, hread, fun now => ?_⟩
  obtain ⟨hfits, hload⟩ := (halone pre _ post hevents).2
  obtain ⟨hok', hcore'⟩ := run_engine dst pre sv hok hcore
  obtain ⟨h', hrun, -, hview⟩ := load_snapshot (order _) hok' hfits hload
    (sv.run dst pre).engine.tev now
  rw [← hcore'] at hrun
  rw [Engine.dump, hrun]
  exact ⟨rfl, hview⟩

theorem run_reloads_sample : ∃ pre pid order post content,
    savedEvents = pre ++ .bgsave (some pid) order :: post ∧
    (started.run dumpFile savedEvents).disk.read dumpFile = some content ∧
    ∀ now, (liteKVLoad content now .new).2 = true ∧
      (liteKVLoad content now .new).1.holder.view
        = (started.run dumpFile pre).engine.holder.view :=
  (run_reloads started_apart (fun _ => rfl) KVContainer.ok_new rfl savedEvents_loads
    savedEvents_whole).resolve_left savedEvents_dump

/-! ## A save that ends -/

/-- A child has written so much of its dump, and nothing has failed. -/
structure AtWork (dst : Bytes) (pid : Nat) (bytes : Bytes) (pos : Nat) (sv : Saving) : Prop where
  apart : sv.disk.Apart dst
  child : ∃ c, sv.child pid = some c ∧ c.bytes = bytes ∧ c.pos = pos ∧ c.file.isSome ∧
    c.bad = false ∧ c.Writes dst sv.disk

theorem AtWork.le {pid pos : Nat} {bytes : Bytes} (h : AtWork dst pid bytes pos sv) :
    pos ≤ bytes.length := by
  obtain ⟨c, -, rfl, rfl, hfile, hbad, hw⟩ := h.child
  obtain ⟨i, hi⟩ := Option.isSome_iff_exists.mp hfile
  exact (hw.data i hi hbad).2

theorem AtWork.step {pid pos n : Nat} {bytes : Bytes} {ev : SavingEvent}
    (h : AtWork dst pid bytes pos sv) (hev : writing pid n ev) :
    AtWork dst pid bytes (min (pos + n) bytes.length) (sv.step dst ev) := by
  have hle := h.le
  cases ev with
  | serve e =>
      cases hev
      rw [Nat.add_zero, Nat.min_eq_left hle]
      exact ⟨h.apart, h.child⟩
  | bgsave fork order => exact hev.elim
  | child p act =>
      cases act with
      | write m =>
          obtain ⟨rfl, rfl⟩ := hev
          obtain ⟨c, hc, rfl, rfl, hfile, hbad, hw⟩ := h.child
          obtain ⟨i, hi⟩ := Option.isSome_iff_exists.mp hfile
          have hacts := Child.act_acts h.apart hw (.write n)
          have hact : c.act dst sv.disk (.write n)
              = (sv.disk.write i c.pos ((c.bytes.drop c.pos).take n),
                some { c with pos := c.pos + ((c.bytes.drop c.pos).take n).length }) := by
            dsimp only [Child.act]
            rw [hi, hbad]
            rfl
          rw [step_child hc]
          refine ⟨hacts.apart, _, (Function.update_self _ _ _).trans (congrArg Prod.snd hact), rfl,
            ?_, hfile, hbad, (hacts.writes _ (congrArg Prod.snd hact)).2.1⟩
          dsimp only
          rw [List.length_take, List.length_drop]
          omega
      | _ => exact hev.elim

/-- What is served meanwhile does not matter. -/
theorem AtWork.run {pid : Nat} {bytes : Bytes} : ∀ (ns : List (SavingEvent × Nat)) {pos : Nat}
    {sv : Saving}, AtWork dst pid bytes pos sv → (∀ e ∈ ns, writing pid e.2 e.1) →
    AtWork dst pid bytes (min (pos + (ns.map Prod.snd).sum) bytes.length)
      (sv.run dst (ns.map Prod.fst))
  | [], pos, sv, h, _ => by
      have hle := h.le
      rw [List.map_nil, List.sum_nil, Nat.add_zero, Nat.min_eq_left hle]
      exact h
  | e :: ns, pos, sv, h, hns => by
      have hstep := h.step (hns e List.mem_cons_self)
      have hrest := AtWork.run ns hstep fun e he => hns e (List.mem_cons_of_mem _ he)
      have hpos : min (min (pos + e.2) bytes.length + (ns.map Prod.snd).sum) bytes.length
          = min (pos + ((e :: ns).map Prod.snd).sum) bytes.length := by
        rw [List.map_cons, List.sum_cons]
        omega
      rw [hpos] at hrest
      exact hrest

/-- A child that is at the end gives the dump its name. -/
theorem AtWork.rename {pid : Nat} {bytes : Bytes} (h : AtWork dst pid bytes bytes.length sv) :
    (sv.step dst (.child pid (.rename true))).disk.read dst = some bytes := by
  obtain ⟨c, hc, rfl, hpos, hfile, hbad, hw⟩ := h.child
  obtain ⟨i, hi⟩ := Option.isSome_iff_exists.mp hfile
  obtain ⟨hdata, -⟩ := hw.data i hi hbad
  obtain ⟨d', hrename, -, hread⟩ := Disk.rename_spec h.apart (hw.file i hi)
  rw [step_child hc]
  simp only [Child.act, hi, hbad, hpos, hrename, Option.isSome_some, decide_true, Bool.or_true,
    Bool.and_self, if_true]
  rw [hread, hdata, hpos, List.take_length]

/-- A child that has been forked and has opened its file. -/
theorem atWork_opened (hd : sv.disk.Apart dst) (hdst : dst ≠ []) (pid : Nat)
    (order : ∀ h, IterationOrder h) : AtWork dst pid (sv.engine.dump (order _)) 0
      ((sv.step dst (.bgsave (some pid) order)).step dst (.child pid (.openFile true))) := by
  obtain ⟨hapart, hname, hdata, -⟩ := Disk.openTrunc_spec hd
  rw [step_bgsave hdst, step_child (Function.update_self _ _ _)]
  refine ⟨hapart, _, Function.update_self _ _ _, rfl, rfl, rfl, rfl, ?_⟩
  refine ⟨fun _ => rfl, fun i hi => ?_, fun i hi _ => ?_⟩
  · cases hi
    exact hname
  · cases hi
    exact ⟨hdata, Nat.zero_le _⟩

/-- **A save that is not disturbed ends with the store of its `bgsave`**, whatever
the process serves while the child writes. -/
theorem run_completes (hd : sv.disk.Apart dst) (hdst : dst ≠ []) (pid : Nat)
    (order : ∀ h, IterationOrder h) (ns : List (SavingEvent × Nat))
    (hns : ∀ e ∈ ns, writing pid e.2 e.1)
    (henough : (sv.engine.dump (order _)).length ≤ (ns.map Prod.snd).sum) :
    (sv.run dst (.bgsave (some pid) order :: .child pid (.openFile true) :: ns.map Prod.fst
      ++ [.child pid (.rename true)])).disk.read dst = some (sv.engine.dump (order _)) := by
  have hopen := atWork_opened hd hdst pid order
  have hrun := hopen.run ns hns
  rw [Nat.zero_add, Nat.min_eq_right henough] at hrun
  have hlast := hrun.rename
  rw [run, List.foldl_append]
  exact hlast

theorem run_completes_sample :
    (started.run dumpFile [.bgsave (some 7) .ofBuckets, .child 7 (.openFile true), setEvent,
      .child 7 (.write 99), .child 7 (.rename true)]).disk.read dumpFile
      = some (started.engine.dump (.ofBuckets _)) :=
  run_completes started_apart (by decide) 7 .ofBuckets [(setEvent, 0), (.child 7 (.write 99), 99)]
    (by
      intro e he
      rcases List.mem_pair.mp he with rfl | rfl
      · exact rfl
      · exact ⟨rfl, rfl⟩)
    (by decide +kernel)

/-! ## Two children -/

/-- A file that does not begin with the header is not read. -/
theorem liteKVLoad_zero (bytes : Bytes) (now : Nat) (s : LoadState) :
    liteKVLoad (0 :: bytes) now s = (s, false) := by
  have hhead : (0 :: bytes).take 6 ≠ ascii "LITEKV" := by
    intro h
    have hfirst := congrArg List.head? h
    rw [List.take_succ_cons, List.head?_cons] at hfirst
    revert hfirst
    decide
  rw [liteKVLoad]
  split
  · rfl
  · rfl

/-- **A second child tears the dump**: when it opens the file of a child that has
written some of it, and that child goes on and renames it, the dump has a gap in
place of the header, and nothing is read of it. -/
theorem overlap_tears {p q pos : Nat} {bytes : Bytes} {c : Child}
    (h : AtWork dst p bytes pos sv) (hq : q ≠ p) (hc : sv.child q = some c) (hfile : c.file = none)
    (hpos : 0 < pos) {n : Nat} (hn : bytes.length ≤ pos + n) :
    ∃ content, (sv.run dst [.child q (.openFile true), .child p (.write n),
        .child p (.rename true)]).disk.read dst = some content ∧
      content = List.replicate pos 0 ++ bytes.drop pos ∧
      ∀ now s, liteKVLoad content now s = (s, false) := by
  refine ⟨_, ?_, rfl, fun now s => ?_⟩
  · obtain ⟨cp, hcp, rfl, rfl, hopen, hbad, hw⟩ := h.child
    obtain ⟨i, hi⟩ := Option.isSome_iff_exists.mp hopen
    have hname := hw.file i hi
    have hle := (hw.data i hi hbad).2
    -- the other child empties the file
    have hemptied : sv.step dst (.child q (.openFile true))
        = ⟨sv.engine, ⟨sv.disk.names, Function.update sv.disk.data i [], sv.disk.next⟩,
          Function.update sv.child q (some { c with file := some i })⟩ := by
      rw [step_child hc]
      simp only [Child.act, hfile, Disk.openTrunc, hname, if_true]
    have hp : Function.update sv.child q (some { c with file := some i }) p = some cp := by
      rw [Function.update_of_ne hq.symm, hcp]
    -- and this one writes where it was
    have hgap :
        cp.act dst ⟨sv.disk.names, Function.update sv.disk.data i [], sv.disk.next⟩ (.write n)
          = (⟨sv.disk.names, Function.update (Function.update sv.disk.data i []) i
              (List.replicate cp.pos 0 ++ cp.bytes.drop cp.pos), sv.disk.next⟩,
            some { cp with pos := cp.bytes.length }) := by
      have hrest : (cp.bytes.drop cp.pos).take n = cp.bytes.drop cp.pos :=
        List.take_of_length_le (by rw [List.length_drop]; omega)
      have hend : cp.pos + (cp.bytes.drop cp.pos).length = cp.bytes.length := by
        rw [List.length_drop]
        omega
      simp only [Child.act, hi, hbad, hrest, hend, Bool.false_eq_true, if_false, Disk.write,
        Function.update_self]
      simp
    rw [run, List.foldl_cons, hemptied, List.foldl_cons, step_child hp, hgap, List.foldl_cons,
      step_child (Function.update_self _ _ _), List.foldl_nil]
    simp [Child.act, hi, hbad, Disk.rename, hname, Disk.read]
  · obtain ⟨k, rfl⟩ := Nat.exists_eq_succ_of_ne_zero (Nat.pos_iff_ne_zero.mp hpos)
    rw [List.replicate_succ, List.cons_append]
    exact liteKVLoad_zero _ now s

theorem overlap_tears_sample : ∃ content, (started.run dumpFile
      [.bgsave (some 8) .ofBuckets, .bgsave (some 7) .ofBuckets, .child 7 (.openFile true),
        .child 7 (.write 12), .child 8 (.openFile true), .child 7 (.write 99),
        .child 7 (.rename true)]).disk.read dumpFile = some content ∧
    ∀ now s, liteKVLoad content now s = (s, false) := by
  have hforked : (started.step dumpFile (.bgsave (some 8) .ofBuckets)).disk.Apart dumpFile :=
    started_apart
  have hopened := atWork_opened hforked (by decide) 7 .ofBuckets
  have hwrites : writing 7 12 (.child 7 (.write 12)) := ⟨rfl, rfl⟩
  have hwork := hopened.step hwrites
  obtain ⟨content, hread, -, hload⟩ := overlap_tears hwork (q := 8) (by decide)
    (c := ⟨started.engine.dump (.ofBuckets _), none, 0, false⟩) rfl rfl (by decide +kernel)
    (n := 99) (by decide +kernel)
  refine ⟨content, ?_, hload⟩
  simp only [run, List.foldl_cons, List.foldl_nil] at hread ⊢
  exact hread

end Saving

end LiteKV
