/-
LiteKV.MappingTheorems — loading a dump is safe and ends, on any file.

Each decoder over the cursor gives what the decoder over the list of the
remaining bytes gives, and leaves the cursor at what that leaves: one `_at`
lemma for each, from the integers up to the records, and the rules of
`Lib.Cursor` check every access on the way. The decoders over lists take
bytes or break off (`nextElem_takes` and its siblings, `loadRecord_takes`),
so that the number of bytes bounds every loop, whatever counts the file
gives. It also bounds `idx`, which therefore never comes back to 0.
-/
import LiteKV.LkvdbTheorems
import LiteKV.Mapping

namespace LiteKV

open Lib.Cursors

/-! ## What the decoders take -/

theorem decodeLoop_le (fuel : Nat) : ∀ (shift valen : Nat) (bs : Bytes),
    (decodeLoop fuel shift valen bs).2.length ≤ bs.length := by
  induction fuel with
  | zero => exact fun _ _ bs => Nat.le_refl _
  | succ fuel ih =>
    intro shift valen bs
    cases bs with
    | nil => exact Nat.le_refl _
    | cons b bs =>
        rw [decodeLoop]
        split
        · exact Nat.le_succ_of_le (ih _ _ bs)
        · exact Nat.le_succ _

theorem decodeInteger_le (bs : Bytes) : (decodeInteger bs).2.length ≤ bs.length :=
  decodeLoop_le 10 0 0 bs

theorem decodeStdString_le (bs : Bytes) : (decodeStdString bs).2.length ≤ bs.length := by
  have := decodeInteger_le bs
  rw [decodeStdString]
  split
  · exact this
  · rw [List.length_drop]
    omega

/-- A string that is not empty took bytes. -/
theorem decodeStdString_lt {bs : Bytes} (h : (decodeStdString bs).1.isEmpty = false) :
    (decodeStdString bs).2.length < bs.length := by
  have := decodeInteger_le bs
  rw [decodeStdString] at h ⊢
  split
  · rename_i hempty
    rw [if_pos hempty] at h
    cases h
  · rw [List.length_drop]
    omega

/-- The bodies of the collections' loops, over a list. -/
def nextElem (ans : ListObject) (bs : Bytes) : Option ListObject × Bytes :=
  let elem := decodeStdString bs
  (if elem.1.isEmpty then none else some (ans.push false elem.1), elem.2)

def nextField (ans : DictObject) (bs : Bytes) : Option DictObject × Bytes :=
  let key := decodeStdString bs
  if key.1.isEmpty then (none, key.2)
  else
    let value := decodeStdString key.2
    (if value.1.isEmpty then none else some (ans.update key.1 value.1).1, value.2)

def nextMember (ans : SetObject) (bs : Bytes) : Option SetObject × Bytes :=
  let elem := decodeStdString bs
  (if elem.1.isEmpty then none else some (ans.insert elem.1).1, elem.2)

/-- A loop over texts is the loop of its body. -/
theorem TextLoop.eq_walkList {α : Type} {loop : Nat → α → Bytes → α × Bytes} {add : α → Bytes → α}
    (h : TextLoop loop add) (count : Nat) (ans : α) (bs : Bytes) :
    loop count ans bs = walkList (fun ans bs =>
      (if (decodeStdString bs).1.isEmpty then none else some (add ans (decodeStdString bs).1),
        (decodeStdString bs).2)) count ans bs := by
  induction count generalizing ans bs with
  | zero => exact h.done ans bs
  | succ count ih =>
    rw [h.turn, walkList]
    cases (decodeStdString bs).1.isEmpty with
    | true => rfl
    | false => exact ih _ _

theorem decodeElems_eq (count : Nat) (ans : ListObject) (bs : Bytes) :
    decodeElems count ans bs = walkList nextElem count ans bs :=
  decodeElems_loop.eq_walkList count ans bs

theorem decodeFields_eq (count : Nat) (ans : DictObject) (bs : Bytes) :
    decodeFields count ans bs = walkList nextField count ans bs := by
  induction count generalizing ans bs with
  | zero => rfl
  | succ count ih =>
    rw [decodeFields, walkList, nextField]
    cases (decodeStdString bs).1.isEmpty with
    | true => rfl
    | false =>
        dsimp only
        cases (decodeStdString (decodeStdString bs).2).1.isEmpty with
        | true => rfl
        | false => exact ih _ _

theorem decodeMembers_eq (count : Nat) (ans : SetObject) (bs : Bytes) :
    decodeMembers count ans bs = walkList nextMember count ans bs :=
  decodeMembers_loop.eq_walkList count ans bs

/-- The body of a loop over texts takes one. -/
theorem nextText_takes {α : Type} (add : α → Bytes → α) : Takes fun ans bs =>
    (if (decodeStdString bs).1.isEmpty then none else some (add ans (decodeStdString bs).1),
      (decodeStdString bs).2) := by
  intro ans bs
  by_cases hempty : (decodeStdString bs).1.isEmpty = true
  · simp only [hempty, if_true]
    exact decodeStdString_le bs
  · simp only [hempty]
    exact decodeStdString_lt (Bool.eq_false_iff.mpr hempty)

theorem nextElem_takes : Takes nextElem :=
  nextText_takes fun (ans : ListObject) s => ans.push false s

theorem nextField_takes : Takes nextField := by
  intro ans bs
  rw [nextField]
  cases hempty : (decodeStdString bs).1.isEmpty with
  | true => exact decodeStdString_le bs
  | false =>
      have hkey := decodeStdString_lt hempty
      have hvalue := decodeStdString_le (decodeStdString bs).2
      simp only [Bool.false_eq_true, if_false]
      cases (decodeStdString (decodeStdString bs).2).1.isEmpty with
      | true => exact Nat.le_of_lt (Nat.lt_of_le_of_lt hvalue hkey)
      | false => exact Nat.lt_of_le_of_lt hvalue hkey

theorem nextMember_takes : Takes nextMember :=
  nextText_takes fun (ans : SetObject) s => (ans.insert s).1

theorem loadValue_le (type : UInt8) (live : Bool) (now : Nat) (key : Key) (h : KVContainer)
    (bs : Bytes) : (loadValue type live now key h bs).2.length ≤ bs.length := by
  have hcount := decodeInteger_le bs
  unfold loadValue
  split
  · exact hcount
  · split
    · exact decodeStdString_le bs
    · split
      · dsimp only
        rw [decodeDList, decodeElems_eq]
        exact Nat.le_trans (walkList_le nextElem_takes _ _ _) hcount
      · split
        · dsimp only
          rw [decodeHashDict, decodeFields_eq]
          exact Nat.le_trans (walkList_le nextField_takes _ _ _) hcount
        · dsimp only
          rw [decodeHashSet, decodeMembers_eq]
          exact Nat.le_trans (walkList_le nextMember_takes _ _ _) hcount

/-! ## The decoders over the cursor -/

namespace Mapping

section

variable {m : Mapping} {c : Cursor} {bs : Bytes}

theorem byte_at {b : UInt8} (h : At m.bytes c (b :: bs)) : m.byte c = b := by
  rw [byte, h.getElem?]
  rfl

/-- A byte is read and stepped over. -/
theorem step_at {b : UInt8} (h : At m.bytes c (b :: bs)) :
    At m.bytes ((c.read 1).advance 1) bs :=
  (h.read (Nat.le_add_left 1 bs.length)).advance m.fits (Nat.le_add_left 1 bs.length)

theorem remain_lt_iff (h : At m.bytes c bs) (n : Nat) : c.remain < n ↔ bs.length < n := by
  rw [h.remain]

theorem at_end (h : At m.bytes c []) : c.remain < 1 := (remain_lt_iff h 1).mpr Nat.zero_lt_one

theorem not_at_end {b : UInt8} (h : At m.bytes c (b :: bs)) : ¬ c.remain < 1 := by
  rw [remain_lt_iff h, List.length_cons]
  omega

theorem decodeLoop_at (fuel : Nat) : ∀ (shift valen : Nat) {c : Cursor} {bs : Bytes},
    At m.bytes c bs →
    (m.decodeLoop fuel shift valen c).1 = (LiteKV.decodeLoop fuel shift valen bs).1 ∧
    At m.bytes (m.decodeLoop fuel shift valen c).2 (LiteKV.decodeLoop fuel shift valen bs).2 := by
  induction fuel with
  | zero => exact fun _ _ _ _ h => ⟨rfl, h⟩
  | succ fuel ih =>
    intro shift valen c bs h
    cases bs with
    | nil =>
        rw [decodeLoop, if_pos (at_end h)]
        exact ⟨rfl, h⟩
    | cons b bs =>
        rw [decodeLoop, if_neg (not_at_end h), LiteKV.decodeLoop, byte_at h]
        dsimp only
        split
        · exact ih _ _ (step_at h)
        · exact ⟨rfl, step_at h⟩

theorem decodeInteger_at (h : At m.bytes c bs) :
    (m.decodeInteger c).1 = (LiteKV.decodeInteger bs).1 ∧
      At m.bytes (m.decodeInteger c).2 (LiteKV.decodeInteger bs).2 :=
  decodeLoop_at 10 0 0 h

theorem decodeStdString_at (h : At m.bytes c bs) :
    (m.decodeStdString c).1 = (LiteKV.decodeStdString bs).1 ∧
      At m.bytes (m.decodeStdString c).2 (LiteKV.decodeStdString bs).2 := by
  obtain ⟨hlen, hat⟩ := decodeInteger_at h
  rw [decodeStdString, LiteKV.decodeStdString, hlen, hat.remain]
  split
  · exact ⟨rfl, hat⟩
  · rename_i hfits
    have hle : (LiteKV.decodeInteger bs).1 ≤ (LiteKV.decodeInteger bs).2.length := by omega
    refine ⟨?_, (hat.copy hle).advance m.fits hle⟩
    rw [slice, hat.rest]

theorem nextElem_at (ans : ListObject) (c : Cursor) (bs : Bytes) (h : At m.bytes c bs) :
    (m.nextElem ans c).1 = (LiteKV.nextElem ans bs).1 ∧
      At m.bytes (m.nextElem ans c).2 (LiteKV.nextElem ans bs).2 := by
  obtain ⟨helem, hat⟩ := decodeStdString_at h
  rw [nextElem, LiteKV.nextElem, helem]
  exact ⟨rfl, hat⟩

theorem nextMember_at (ans : SetObject) (c : Cursor) (bs : Bytes) (h : At m.bytes c bs) :
    (m.nextMember ans c).1 = (LiteKV.nextMember ans bs).1 ∧
      At m.bytes (m.nextMember ans c).2 (LiteKV.nextMember ans bs).2 := by
  obtain ⟨helem, hat⟩ := decodeStdString_at h
  rw [nextMember, LiteKV.nextMember, helem]
  exact ⟨rfl, hat⟩

theorem nextField_at (ans : DictObject) (c : Cursor) (bs : Bytes) (h : At m.bytes c bs) :
    (m.nextField ans c).1 = (LiteKV.nextField ans bs).1 ∧
      At m.bytes (m.nextField ans c).2 (LiteKV.nextField ans bs).2 := by
  obtain ⟨hkey, hat⟩ := decodeStdString_at h
  obtain ⟨hvalue, hat'⟩ := decodeStdString_at hat
  rw [nextField, LiteKV.nextField, hkey]
  dsimp only
  split
  · exact ⟨rfl, hat⟩
  · rw [hvalue]
    exact ⟨rfl, hat'⟩

end

section

variable {m : Mapping} {c : Cursor} {bs : Bytes} {fuel : Nat}

theorem decodeDList_at (h : At m.bytes c bs) (hfuel : bs.length < fuel) :
    ∃ c', m.decodeDList fuel c = some ((LiteKV.decodeDList bs).1, c') ∧
      At m.bytes c' (LiteKV.decodeDList bs).2 := by
  obtain ⟨hcount, hat⟩ := decodeInteger_at h
  have hle := decodeInteger_le bs
  rw [decodeDList, LiteKV.decodeDList, hcount, decodeElems_eq]
  exact walk_at nextElem_at nextElem_takes fuel 0 _ .new _ _ hat (by omega)

theorem decodeHashDict_at (h : At m.bytes c bs) (hfuel : bs.length < fuel) :
    ∃ c', m.decodeHashDict fuel c = some ((LiteKV.decodeHashDict bs).1, c') ∧
      At m.bytes c' (LiteKV.decodeHashDict bs).2 := by
  obtain ⟨hcount, hat⟩ := decodeInteger_at h
  have hle := decodeInteger_le bs
  rw [decodeHashDict, LiteKV.decodeHashDict, hcount, decodeFields_eq]
  exact walk_at nextField_at nextField_takes fuel 0 _ .new _ _ hat (by omega)

theorem decodeHashSet_at (h : At m.bytes c bs) (hfuel : bs.length < fuel) :
    ∃ c', m.decodeHashSet fuel c = some ((LiteKV.decodeHashSet bs).1, c') ∧
      At m.bytes c' (LiteKV.decodeHashSet bs).2 := by
  obtain ⟨hcount, hat⟩ := decodeInteger_at h
  have hle := decodeInteger_le bs
  rw [decodeHashSet, LiteKV.decodeHashSet, hcount, decodeMembers_eq]
  exact walk_at nextMember_at nextMember_takes fuel 0 _ .new _ _ hat (by omega)

/-- The value of a record. -/
theorem loadValue_at (type : UInt8) (live : Bool) (now : Nat) (key : Key) (holder : KVContainer)
    (h : At m.bytes c bs) (hfuel : bs.length < fuel) :
    ∃ c', m.loadValue fuel type live now key holder c
        = some ((LiteKV.loadValue type live now key holder bs).1, c') ∧
      At m.bytes c' (LiteKV.loadValue type live now key holder bs).2 := by
  unfold loadValue LiteKV.loadValue
  by_cases h1 : type = 1
  · obtain ⟨hval, hat⟩ := decodeInteger_at h
    rw [if_pos h1, if_pos h1]
    dsimp only
    rw [hval]
    exact ⟨_, rfl, hat⟩
  rw [if_neg h1, if_neg h1]
  by_cases h2 : type = 2
  · obtain ⟨hstr, hat⟩ := decodeStdString_at h
    rw [if_pos h2, if_pos h2]
    dsimp only
    rw [hstr]
    exact ⟨_, rfl, hat⟩
  rw [if_neg h2, if_neg h2]
  by_cases h3 : type = 3
  · obtain ⟨c', hrun, hat⟩ := decodeDList_at h hfuel
    rw [if_pos h3, if_pos h3, hrun]
    exact ⟨c', rfl, hat⟩
  rw [if_neg h3, if_neg h3]
  by_cases h4 : type = 4
  · obtain ⟨c', hrun, hat⟩ := decodeHashDict_at h hfuel
    rw [if_pos h4, if_pos h4, hrun]
    exact ⟨c', rfl, hat⟩
  · obtain ⟨c', hrun, hat⟩ := decodeHashSet_at h hfuel
    rw [if_neg h4, if_neg h4, hrun]
    exact ⟨c', rfl, hat⟩

end

/-! ## Records -/

/-- A turn over the cursor did what the turn over the list did. -/
structure Agrees (m : Mapping) (r : LoadState × Cursor × Bool) (l : LoadState × Option Bytes) :
    Prop where
  state : r.1 = l.1
  safe : AllSafe m.bytes.length r.2.1
  stopped : l.2 = none → r.2.2 = false
  goesOn : ∀ bs, l.2 = some bs → r.2.2 = true ∧ At m.bytes r.2.1 bs

theorem Agrees.stop {m : Mapping} {c : Cursor} {bs : Bytes} (s : LoadState)
    (h : At m.bytes c bs) : Agrees m (s, c, false) (s, none) :=
  ⟨rfl, h.safe, fun _ => rfl, nofun⟩

end Mapping

/-- The end of a record over a list. -/
def endItem (len idx : Nat) (s : LoadState) : Bytes → LoadState × Option Bytes
  | [] => (s, none)
  | endFlag :: bs =>
      if endFlag ≠ 0xFE then (s, none) else ({ s with calls := s.calls ++ [(len, idx)] }, some bs)

/-- The rest of a record over a list. -/
def loadItem (now len idx : Nat) (type : UInt8) (exp : Bool × Nat) (s : LoadState) (bs : Bytes) :
    LoadState × Option Bytes :=
  let key := decodeStdString bs
  let v := loadValue type (!exp.1 || exp.2 > now) now ⟨key.1⟩ s.holder key.2
  endItem len idx (s.stored now exp key.1 v.1) v.2

theorem endItem_le {len idx : Nat} {s : LoadState} {bs bs' : Bytes}
    (h : (endItem len idx s bs).2 = some bs') : bs'.length ≤ bs.length := by
  cases bs with
  | nil => cases h
  | cons endFlag bs =>
      rw [endItem] at h
      split at h
      · cases h
      · obtain rfl : bs = bs' := Option.some.inj h
        exact Nat.le_succ _

theorem loadExpiration_le {bs : Bytes} {e : Bool × Nat × Bytes} (h : loadExpiration bs = some e) :
    e.2.2.length ≤ bs.length := by
  cases bs with
  | nil => cases h
  | cons flag bs =>
      rw [loadExpiration] at h
      split at h
      · obtain rfl := Option.some.inj h
        exact Nat.le_succ _
      · split at h
        · cases h
        · obtain rfl := Option.some.inj h
          simp only [List.length_drop, List.length_cons]
          omega

theorem loadRecord_cons (now len idx : Nat) (s : LoadState) (startFlag type : UInt8) (bs : Bytes) :
    loadRecord now len idx s (startFlag :: type :: bs)
      = if startFlag ≠ 0xFF then (s, none)
        else if type < 1 ∨ 5 < type then (s, none)
        else (loadExpiration bs).elim (s, none) fun e =>
          loadItem now len idx type (e.1, e.2.1) s e.2.2 := by
  rw [loadRecord]
  cases loadExpiration bs with
  | none => rfl
  | some e =>
      obtain ⟨flag, time, rest⟩ := e
      simp only [loadItem, Option.elim_some]
      cases (loadValue type (!flag || time > now) now ⟨(decodeStdString rest).1⟩ s.holder
        (decodeStdString rest).2).2 <;> rfl

/-- A record that another may follow took bytes. -/
theorem loadRecord_takes {now len idx : Nat} {s : LoadState} {bs bs' : Bytes}
    (h : (loadRecord now len idx s bs).2 = some bs') : bs'.length < bs.length := by
  rcases bs with _ | ⟨startFlag, _ | ⟨type, bs⟩⟩
  · cases h
  · cases h
  rw [loadRecord_cons] at h
  split at h
  · cases h
  split at h
  · cases h
  cases hexp : loadExpiration bs with
  | none =>
      rw [hexp] at h
      cases h
  | some e =>
      rw [hexp, Option.elim_some, loadItem] at h
      have hrest : e.2.2.length ≤ bs.length := loadExpiration_le hexp
      have hkey := decodeStdString_le e.2.2
      have hvalue := loadValue_le type (!e.1 || e.2.1 > now) now ⟨(decodeStdString e.2.2).1⟩
        s.holder (decodeStdString e.2.2).2
      have hend := endItem_le h
      dsimp only at hend
      simp only [List.length_cons]
      omega

namespace Mapping

section

variable {m : Mapping} {c : Cursor} {bs : Bytes} {fuel : Nat}

theorem endItem_at (len idx : Nat) (s : LoadState) (h : At m.bytes c bs) :
    Agrees m (m.endItem len idx s c) (LiteKV.endItem len idx s bs) := by
  rw [endItem]
  cases bs with
  | nil =>
      rw [if_pos (at_end h)]
      exact .stop s h
  | cons endFlag bs =>
      rw [if_neg (not_at_end h), byte_at h, LiteKV.endItem]
      dsimp only
      by_cases hend : endFlag ≠ 0xFE
      · rw [if_pos hend, if_pos hend]
        exact .stop s (step_at h)
      · rw [if_neg hend, if_neg hend]
        refine ⟨rfl, (step_at h).safe, nofun, fun bs' hbs => ⟨rfl, ?_⟩⟩
        obtain rfl : bs = bs' := Option.some.inj hbs
        exact step_at h

theorem loadItem_at (now len idx : Nat) (type : UInt8) (exp : Bool × Nat) (s : LoadState)
    (h : At m.bytes c bs) (hfuel : bs.length < fuel) :
    ∃ r, m.loadItem fuel now len idx type exp s c = some r ∧
      Agrees m r (LiteKV.loadItem now len idx type exp s bs) := by
  obtain ⟨hkey, hat⟩ := decodeStdString_at h
  have hle := decodeStdString_le bs
  obtain ⟨c', hvalue, hat'⟩ := loadValue_at type (!exp.1 || exp.2 > now) now
    ⟨(LiteKV.decodeStdString bs).1⟩ s.holder hat (Nat.lt_of_le_of_lt hle hfuel)
  rw [loadItem, LiteKV.loadItem, hkey]
  rw [hvalue]
  exact ⟨_, rfl, endItem_at len idx _ hat'⟩

/-- The expiration of a record. -/
theorem loadExpiration_at {flag : UInt8} (h : At m.bytes c (flag :: bs)) :
    (LiteKV.loadExpiration (flag :: bs) = none ∧ (m.loadExpiration c).1 = none ∧
      AllSafe m.bytes.length (m.loadExpiration c).2) ∨
    ∃ e, LiteKV.loadExpiration (flag :: bs) = some e ∧
      (m.loadExpiration c).1 = some (e.1, e.2.1) ∧ At m.bytes (m.loadExpiration c).2 e.2.2 ∧
      e.2.2.length ≤ bs.length := by
  have hstep := step_at h
  rw [loadExpiration, LiteKV.loadExpiration, byte_at h]
  by_cases hflag : flag = 0
  · rw [if_pos hflag, if_pos hflag]
    exact .inr ⟨_, rfl, rfl, hstep, Nat.le_refl _⟩
  · rw [if_neg hflag, if_neg hflag]
    by_cases hshort : bs.length < 8
    · rw [if_pos ((remain_lt_iff hstep 8).mpr hshort), if_pos hshort]
      exact .inl ⟨rfl, rfl, hstep.safe⟩
    · have hle : 8 ≤ bs.length := Nat.le_of_not_lt hshort
      rw [if_neg (mt (remain_lt_iff hstep 8).mp hshort), if_neg hshort]
      refine .inr ⟨_, rfl, ?_, (hstep.read hle).advance m.fits hle, ?_⟩
      · rw [word, hstep.rest]
      · rw [List.length_drop]
        exact Nat.sub_le _ _

theorem loadRecord_at (now len idx : Nat) (s : LoadState) (h : At m.bytes c bs)
    (hfuel : bs.length < fuel) :
    ∃ r, m.loadRecord fuel now len idx s c = some r ∧
      Agrees m r (LiteKV.loadRecord now len idx s bs) := by
  rw [loadRecord]
  cases bs with
  | nil =>
      rw [if_pos (at_end h)]
      exact ⟨_, rfl, .stop s h⟩
  | cons startFlag bs =>
      have hread := h.read (Nat.le_add_left 1 bs.length)
      have hstep := step_at h
      rw [if_neg (not_at_end h), byte_at h]
      dsimp only
      cases bs with
      | nil =>
          split
          · exact ⟨_, rfl, .stop s hread⟩
          · rw [if_pos (at_end hstep)]
            exact ⟨_, rfl, .stop s hstep⟩
      | cons type bs =>
          have htype := step_at hstep
          rw [loadRecord_cons, byte_at hstep]
          split
          · exact ⟨_, rfl, .stop s hread⟩
          · rw [if_neg (not_at_end hstep)]
            split
            · exact ⟨_, rfl, .stop s htype⟩
            · cases bs with
              | nil =>
                  rw [if_pos (at_end htype)]
                  exact ⟨_, rfl, .stop s htype⟩
              | cons flag bs =>
                  rw [if_neg (not_at_end htype)]
                  rcases loadExpiration_at htype with
                    ⟨hlist, hnone, hsafe⟩ | ⟨e, hlist, hsome, hat, hle⟩
                  · rw [hlist]
                    generalize m.loadExpiration _ = exp at hnone hsafe
                    obtain ⟨exp, c'⟩ := exp
                    obtain rfl : exp = none := hnone
                    exact ⟨_, rfl, rfl, hsafe, fun _ => rfl, nofun⟩
                  · rw [hlist]
                    generalize m.loadExpiration _ = exp at hsome hat
                    obtain ⟨exp, c'⟩ := exp
                    obtain rfl : exp = some (e.1, e.2.1) := hsome
                    refine loadItem_at now len idx type (e.1, e.2.1) s hat ?_
                    simp only [List.length_cons] at hfuel
                    omega

/-- The loop of `LiteKVLoad` ends, and no two records have the same `idx`. -/
theorem loadRecords_at (clock : Nat → Nat) (len : Nat) : ∀ (fuel idx : Nat) (s : LoadState)
    (c : Cursor) (bs : Bytes), At m.bytes c bs → bs.length < fuel →
    idx + bs.length ≤ m.bytes.length →
    ∃ r, m.loadRecords clock len fuel idx s c = some r ∧ AllSafe m.bytes.length r.2.1 ∧
      ∀ now, (∀ i, clock i = now) →
        LiteKV.loadRecords now len (len + 1 - idx) idx s bs = (r.1, r.2.2)
  | 0, _, _, _, _, _, hfuel, _ => absurd hfuel (Nat.not_lt_zero _)
  | fuel + 1, idx, s, c, bs, h, hfuel, hidx => by
      rw [loadRecords]
      by_cases hle : idx ≤ len
      · obtain ⟨todo, htodo⟩ : ∃ todo, len + 1 - idx = todo + 1 := ⟨len - idx, by omega⟩
        obtain ⟨r, hrun, hagree⟩ := loadRecord_at (clock idx) len idx s h hfuel
        rw [if_pos hle, hrun, htodo]
        cases hlist : LiteKV.loadRecord (clock idx) len idx s bs with
        | mk s' next =>
        rw [hlist] at hagree
        obtain ⟨s'', c', goes⟩ := r
        obtain ⟨hstate, hsafe, hstopped, hgoes⟩ := hagree
        obtain rfl : s'' = s' := hstate
        cases next with
        | none =>
            obtain rfl : goes = false := hstopped rfl
            refine ⟨_, rfl, hsafe, fun now hnow => ?_⟩
            rw [LiteKV.loadRecords, ← hnow idx, hlist]
        | some bs' =>
            obtain ⟨hgo, hat⟩ := hgoes bs' rfl
            obtain rfl : goes = true := hgo
            have hlt : bs'.length < bs.length := loadRecord_takes (congrArg Prod.snd hlist)
            have hfits := m.fits
            have hnext : (idx + 1) % 2 ^ 64 = idx + 1 := Nat.mod_eq_of_lt (by omega)
            have hcount : len + 1 - (idx + 1) = todo := by omega
            dsimp only
            rw [hnext]
            obtain ⟨r, hrun', hsafe', hsame⟩ :=
              loadRecords_at clock len fuel (idx + 1) s'' c' bs' hat (by omega) (by omega)
            refine ⟨r, hrun', hsafe', fun now hnow => ?_⟩
            rw [LiteKV.loadRecords, ← hnow idx, hlist]
            dsimp only
            rw [hnow idx, ← hcount]
            exact hsame now hnow
      · have hdone : len + 1 - idx = 0 := by omega
        rw [if_neg hle, hdone]
        exact ⟨_, rfl, h.safe, fun _ _ => rfl⟩

end

/-- The whole file. -/
theorem liteKVLoad_at (m : Mapping) (clock : Nat → Nat) (s : LoadState) {fuel : Nat}
    (hfuel : m.bytes.length < fuel) :
    ∃ r, m.liteKVLoad clock fuel s = some r ∧ AllSafe m.bytes.length r.2.1 ∧
      ∀ now, (∀ i, clock i = now) → LiteKV.liteKVLoad m.bytes now s = (r.1, r.2.2) := by
  have h := At.start m.bytes
  have hsize : (Cursor.start m.bytes.length).remain = m.bytes.length := rfl
  rw [liteKVLoad, hsize]
  by_cases hshort : m.bytes.length < 10
  · rw [if_pos hshort]
    refine ⟨_, rfl, h.safe, fun now _ => ?_⟩
    rw [LiteKV.liteKVLoad, if_pos hshort]
  · have hread := h.read (Nat.le_of_not_lt hshort)
    have hmagic : m.slice (Cursor.start m.bytes.length) 6 = m.bytes.take 6 := by
      rw [slice, h.rest]
    rw [if_neg hshort, hmagic]
    by_cases hother : m.bytes.take 6 ≠ ascii "LITEKV"
    · dsimp only
      rw [if_pos hother]
      refine ⟨_, rfl, hread.safe, fun now _ => ?_⟩
      rw [LiteKV.liteKVLoad, if_neg hshort, if_pos hother]
    · have hhead := hread.advance m.fits (Nat.le_of_not_lt hshort)
      dsimp only
      rw [if_neg hother]
      by_cases hcount : (m.bytes.drop 10).length < 8
      · rw [if_pos ((remain_lt_iff hhead 8).mpr hcount)]
        refine ⟨_, rfl, hhead.safe, fun now _ => ?_⟩
        rw [LiteKV.liteKVLoad, if_neg hshort, if_neg hother]
        simp only [if_pos hcount]
      · have hle := Nat.le_of_not_lt hcount
        have hrecords := (hhead.read hle).advance m.fits hle
        have hlen : ((m.bytes.drop 10).drop 8).length = m.bytes.length - 18 := by
          rw [List.drop_drop, List.length_drop]
        rw [if_neg (mt (remain_lt_iff hhead 8).mp hcount)]
        rw [List.length_drop] at hle
        obtain ⟨r, hrun, hsafe, hsame⟩ := loadRecords_at clock
          (m.word (((Cursor.start m.bytes.length).read 10).advance 10)) fuel 1 s _ _ hrecords
          (by omega) (by omega)
        refine ⟨r, hrun, hsafe, fun now hnow => ?_⟩
        rw [← hsame now hnow, LiteKV.liteKVLoad, if_neg hshort, if_neg hother]
        simp only [if_neg hcount, word, hhead.rest, Nat.add_sub_cancel]

/-- The loader over the cursor does what the loader over the list does. -/
theorem liteKVLoad_refines (m : Mapping) (now : Nat) (s : LoadState) {fuel : Nat}
    (hfuel : m.bytes.length < fuel) :
    ∃ c, m.liteKVLoad (fun _ => now) fuel s
      = some ((LiteKV.liteKVLoad m.bytes now s).1, c, (LiteKV.liteKVLoad m.bytes now s).2) := by
  obtain ⟨⟨s', c, goes⟩, hrun, -, hsame⟩ := liteKVLoad_at m (fun _ => now) s hfuel
  rw [hsame now fun _ => rfl]
  exact ⟨c, hrun⟩

/-- **Loading a dump is safe and ends.** Whatever the mapped bytes are, and
whatever time it is at each record, fuel for one turn more than there are bytes
is enough, every access is inside the mapping, no string takes more than is
left, and `remain` is in step with `cursor` after every move. -/
theorem load_is_safe (m : Mapping) (clock : Nat → Nat) (s : LoadState) (more : Nat) :
    ∃ r, m.liteKVLoad clock (m.bytes.length + 1 + more) s = some r ∧
      ∀ e ∈ r.2.1.log, e.Safe m.bytes.length := by
  obtain ⟨r, hrun, hsafe, -⟩ := liteKVLoad_at m clock s
    (show m.bytes.length < m.bytes.length + 1 + more by omega)
  exact ⟨r, hrun, hsafe⟩

end Mapping

end LiteKV
