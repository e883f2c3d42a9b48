import PartProgram.Proofs.Calls

/-!
# The case of letters does not show

Where small letters are accepted and checksums are not verified, a reader cannot tell a text from the same text with
other letters capital, in words, in comments and where letters are wrong (`Text.upper`). Two such runs differ in two
things only: the checksum that is computed, at which nobody looks, and the byte that a fault names. `Reader.upper` is
the reader without these, and what a byte does to it is what the capital letter does (`process_upper`).
-/

namespace PartProgram

namespace Byte

variable {c x : UInt8}

/-- A letter of ASCII. -/
def isLetter (c : UInt8) : Bool := isUpper c || isLower c

theorem toUpper_eq_iff (hx : isLetter x = false) : toUpper c = x ↔ c = x := by
  grind [isLetter, isUpper, isLower, toUpper]

theorem toUpper_toUpper (c : UInt8) : toUpper (toUpper c) = toUpper c := by
  grind [isLower, toUpper]

theorem isDigit_toUpper (c : UInt8) : isDigit (toUpper c) = isDigit c := by
  grind [isDigit, isLower, toUpper]

theorem toUpper_of_isDigit (h : isDigit c) : toUpper c = c := by
  grind [isDigit, isLower, toUpper]

end Byte

/-- The text with capital letters for small ones. -/
def Text.upper (t : Bytes) : Bytes := t.map Byte.toUpper

end PartProgram

namespace PartProgram.Block

open Number Reader

variable {σ : Type} {rules : Rules} {b : Builder σ} {c : UInt8} {r r' : Reader} {s : σ}

theorem isLiteralByte_toUpper (c : UInt8) : isLiteralByte (Byte.toUpper c) = isLiteralByte c := by
  grind [isLiteralByte, Byte.isDigit, Byte.isLower, Byte.toUpper]

theorem toUpper_of_isLiteralByte (h : isLiteralByte c = true) : Byte.toUpper c = c := by
  grind [isLiteralByte, Byte.isDigit, Byte.isLower, Byte.toUpper]

/-! ### Readers without what depends on case -/

/-- The fault with the capital letter for the byte. -/
def Fault.upper (f : Fault) : Fault := { f with character := Byte.toUpper f.character }

/-- The mode with the capital letter for the byte that a fault names. -/
def Mode.upper : Mode → Mode
  | .failed f => .failed f.upper
  | m => m

/-- The reader without its computed checksum, and with the capital letter for the byte that a fault names. -/
def Reader.upper (r : Reader) : Reader := { r with mode := r.mode.upper, parity := 0 }

/-- What has come of a byte, but for what depends on case. -/
def upperOutcome (x : Reader × σ) : Reader × σ := (x.1.upper, x.2)

theorem upperOutcome_eq_iff {x y : Reader × σ} :
    upperOutcome x = upperOutcome y ↔ x.1.upper = y.1.upper ∧ x.2 = y.2 := by
  rw [upperOutcome, upperOutcome, Prod.mk.injEq]

theorem Mode.address?_upper (m : Mode) : m.upper.address? = m.address? := by
  cases m <;> rfl

theorem Mode.fault?_upper (m : Mode) : m.upper.fault? = m.fault?.map Fault.upper := by
  cases m <;> rfl

theorem fault?_upper (r : Reader) : r.upper.fault? = r.fault?.map Fault.upper := r.mode.fault?_upper

theorem failed_upper (r : Reader) : r.upper.failed = r.failed := by
  rw [Reader.failed, fault?_upper, Option.isSome_map, Reader.failed]

theorem failed_congr_upper (h : r.upper = r'.upper) : r.failed = r'.failed := by
  rw [← failed_upper r, h, failed_upper]

theorem mode_upper (hr : r.failed = false) : r.upper.mode = r.mode := by
  rw [Reader.upper]
  cases hm : r.mode with
  | failed f => simp [failed_of_mode hm, Mode.fault?] at hr
  | _ => rfl

theorem upper_upper (r : Reader) : r.upper.upper = r.upper := by
  rw [upper, upper]
  cases r.mode <;> simp [Mode.upper, Fault.upper, Byte.toUpper_toUpper]

/-- The byte at which a reader stops may be given in either case. -/
theorem upper_stop (r : Reader) (cause : Cause) (c : UInt8) (column : Nat) :
    ({ r.upper with
        mode := .failed ⟨cause, r.upper.mode.address?, Byte.toUpper c, r.line, column⟩ } : Reader).upper =
      ({ r with mode := .failed ⟨cause, r.mode.address?, c, r.line, column⟩ } : Reader).upper := by
  have hfailed : ∀ f : Fault, (Mode.failed f).upper = .failed f.upper := fun _ => rfl
  simp only [upper, hfailed, Fault.upper, Mode.address?_upper, Byte.toUpper_toUpper]

theorem upper_fail (r : Reader) (cause : Cause) (c : UInt8) :
    (r.upper.fail cause (Byte.toUpper c)).upper = (r.fail cause c).upper := upper_stop r cause c r.column

theorem upper_failWord (r : Reader) (w : Word) (e : Literal.Error) (c : UInt8) :
    (r.upper.failWord w e (Byte.toUpper c)).upper = (r.failWord w e c).upper := upper_stop r (.decimal e) c w.column

/-! ### One byte -/

theorem announce_upper (hr : r.failed = false) (e : Event) (c : UInt8) (s : σ) :
    upperOutcome (r.upper.announce b e (Byte.toUpper c) s) = upperOutcome (r.announce b e c s) := by
  have hr' : r.upper.failed = false := (failed_upper r).trans hr
  obtain ⟨s', h⟩ | ⟨k, running, s', h⟩ := announce_accepted_or_refused b e r.programStarted s
  · rw [h r c hr rfl, h r.upper _ hr' rfl]
    exact congrArg (·, s') (upper_upper { r with programStarted := true })
  · rw [h r c hr rfl, h r.upper _ hr' rfl]
    exact congrArg (·, s') (upper_fail { r with programStarted := running } (.builder k) c)

theorem checksumWrong_of_unverified (hv : rules.verifyChecksum = false) (r : Reader) :
    r.checksumWrong rules = false := by
  rw [checksumWrong]
  cases r.declared <;> simp [hv]

theorem endBlock_upper (hv : rules.verifyChecksum = false) (hr : r.failed = false) (c : UInt8) (s : σ) :
    upperOutcome (r.upper.endBlock rules b (Byte.toUpper c) s) = upperOutcome (r.endBlock rules b c s) := by
  have hr' : r.upper.failed = false := (failed_upper r).trans hr
  have hw := checksumWrong_of_unverified hv
  obtain ⟨running, s', h⟩ | ⟨cause, running, s', -, h⟩ :=
    endBlock_reset_or_fault rules b false r.hasContent r.programStarted s
  · rw [h r c hr (hw r) rfl rfl, h r.upper _ hr' (hw _) rfl rfl]
    rfl
  · rw [h r c hr (hw r) rfl rfl, h r.upper _ hr' (hw _) rfl rfl]
    exact congrArg (·, s') (upper_fail { r with programStarted := running } cause c)

theorem addressOf?_toUpper (hl : rules.acceptLowercase = true) (c : UInt8) :
    addressOf? rules (Byte.toUpper c) = addressOf? rules c := by
  simp [addressOf?, hl, Byte.toUpper_toUpper]

theorem startWord_upper (hl : rules.acceptLowercase = true) (place : Place) (c : UInt8) (r : Reader) :
    (r.upper.startWord rules place (Byte.toUpper c)).upper = (r.startWord rules place c).upper := by
  rw [startWord, startWord, addressOf?_toUpper hl]
  split
  · exact upper_fail r _ c
  · split_ifs
    · exact upper_fail r _ c
    · rfl

theorem atGap_upper (hl : rules.acceptLowercase = true) (hv : rules.verifyChecksum = false) (hr : r.failed = false)
    (place : Place) (c : UInt8) (s : σ) :
    upperOutcome (r.upper.atGap rules b place (Byte.toUpper c) s) = upperOutcome (r.atGap rules b place c s) := by
  have hbyte : ∀ x, Byte.isLetter x = false → (Byte.toUpper c = x) = (c = x) :=
    fun x hx => propext (Byte.toUpper_eq_iff hx)
  -- None of the bytes with a meaning of their own is a letter, so the same branch is taken; what is left to compare is
  -- what the branches come to.
  have hblank : upperOutcome (r.upper, s) = upperOutcome (r, s) := congrArg (·, s) (upper_upper r)
  have hdelete :
      upperOutcome (({ r.upper with hasContent := true } : Reader).announce b .blockDelete (Byte.toUpper c) s) =
        upperOutcome (({ r with hasContent := true } : Reader).announce b .blockDelete c s) :=
    announce_upper (r := { r with hasContent := true }) hr .blockDelete c s
  have hinvalid : upperOutcome (r.upper.fail .invalidCharacter (Byte.toUpper c), s) =
      upperOutcome (r.fail .invalidCharacter c, s) := congrArg (·, s) (upper_fail r .invalidCharacter c)
  have hword : upperOutcome (r.upper.startWord rules place (Byte.toUpper c), s) =
      upperOutcome (r.startWord rules place c, s) := congrArg (·, s) (startWord_upper hl place c r)
  rw [atGap, atGap]
  simp only [apply_ite upperOutcome, hbyte Byte.space rfl, hbyte Byte.tab rfl, hbyte Byte.cr rfl, hbyte Byte.lf rfl,
    hbyte Byte.openParen rfl, hbyte Byte.semicolon rfl, hbyte Byte.star rfl, hbyte Byte.slash rfl,
    hbyte Byte.percent rfl, hblank, endBlock_upper hv hr, hdelete, hinvalid, hword]
  rfl

theorem endIndex_upper (w : Word) (l : Literal) (r : Reader) :
    (r.upper.endIndex w l).upper = (r.endIndex w l).upper := by
  rw [endIndex_eq, endIndex_eq]
  split_ifs
  · rfl
  · exact upper_fail r .invalidCharacter Byte.equals

theorem process_value_upper {w : Word} {l : Literal} (hl : rules.acceptLowercase = true)
    (hv : rules.verifyChecksum = false) (hm : r.mode = .value w l) (c : UInt8) (s : σ) :
    upperOutcome (r.upper.process rules b (Byte.toUpper c) s) = upperOutcome (r.process rules b c s) := by
  have hr : r.failed = false := failed_of_mode hm
  have hr' : r.upper.failed = false := (failed_upper r).trans hr
  have hm' : r.upper.mode = .value w l := (mode_upper hr).trans hm
  have hliteral := isLiteralByte_toUpper c
  cases hc : isLiteralByte c with
  | true =>
    rw [hc] at hliteral
    have hbyte : Byte.toUpper c = c := toUpper_of_isLiteralByte hc
    cases hstep : l.step rules.arithmetic c with
    | ok l' =>
      rw [process_value_literal hm hc hstep, process_value_literal hm' hliteral (by rwa [hbyte])]
      rfl
    | error e =>
      rw [process_value_error hm hc hstep, process_value_error hm' hliteral (by rwa [hbyte])]
      exact congrArg (·, s) (upper_fail r (.decimal e) c)
  | false =>
    rw [hc] at hliteral
    by_cases hq : c = Byte.equals
    · rw [process_value_equals hm hq, process_value_equals hm' (by rw [hq]; rfl)]
      exact congrArg (·, s) (endIndex_upper w l r)
    have hq' : Byte.toUpper c ≠ Byte.equals := fun h => hq ((Byte.toUpper_eq_iff rfl).mp h)
    cases hfinish : l.finish with
    | error e =>
      rw [process_value_incomplete hm hc hq hfinish, process_value_incomplete hm' hliteral hq' hfinish]
      exact congrArg (·, s) (upper_failWord r w e c)
    | ok d =>
      obtain ⟨s', h⟩ | ⟨k, running, s', h⟩ := announce_accepted_or_refused b (w.event d) r.programStarted s
      · rw [process_value_accepted hm hc hq hfinish (h r c hr rfl) hr,
          process_value_accepted hm' hliteral hq' hfinish (h r.upper _ hr' rfl) hr']
        exact atGap_upper (r := { r with programStarted := true, mode := .gap .betweenWords }) hl hv rfl _ c s'
      · rw [process_value_refused hm hc hq hfinish (h r c hr rfl) rfl,
          process_value_refused hm' hliteral hq' hfinish (h r.upper _ hr' rfl) rfl]
        exact congrArg (·, s') (upper_fail { r with programStarted := running } (.builder k) c)

/-- **What a byte does, the capital letter does**, but for what depends on case. -/
theorem process_upper (hl : rules.acceptLowercase = true) (hv : rules.verifyChecksum = false) (hr : r.failed = false)
    (c : UInt8) (s : σ) :
    upperOutcome (r.upper.process rules b (Byte.toUpper c) s) = upperOutcome (r.process rules b c s) := by
  have hmode := mode_upper hr
  have hpassed : upperOutcome (r.upper, s) = upperOutcome (r, s) := congrArg (·, s) (upper_upper r)
  have hbyte : ∀ {x : UInt8}, Byte.isLetter x = false → c ≠ x → Byte.toUpper c ≠ x :=
    fun hx hc h => hc ((Byte.toUpper_eq_iff hx).mp h)
  cases hm : r.mode with
  | gap place =>
    rw [process_gap hm, process_gap (hmode.trans hm)]
    exact atGap_upper hl hv hr place c s
  | address w =>
    by_cases hb : c = Byte.space ∨ c = Byte.tab
    · have hb' : Byte.toUpper c = Byte.space ∨ Byte.toUpper c = Byte.tab := by obtain rfl | rfl := hb <;> decide
      rw [process_address_blank hm hb, process_address_blank (hmode.trans hm) hb']
      exact hpassed
    have hb' : ¬ (Byte.toUpper c = Byte.space ∨ Byte.toUpper c = Byte.tab) := by
      rw [not_or] at hb ⊢
      exact ⟨hbyte rfl hb.1, hbyte rfl hb.2⟩
    have hliteral := isLiteralByte_toUpper c
    cases hc : isLiteralByte c with
    | true =>
      rw [process_address_literal hm hc, process_address_literal (hmode.trans hm) (hliteral.trans hc)]
      exact process_value_upper (r := { r with mode := .value w {} }) hl hv rfl c s
    | false =>
      rw [process_address_other hm hb hc, process_address_other (hmode.trans hm) hb' (hliteral.trans hc)]
      exact congrArg (·, s) (upper_failWord r w .incomplete c)
  | value w l => exact process_value_upper hl hv hm c s
  | comment place =>
    by_cases hclose : c = Byte.closeParen
    · rw [process_comment_close hm hclose, process_comment_close (hmode.trans hm) (by rw [hclose]; rfl)]
      rfl
    by_cases hlf : c = Byte.lf
    · subst hlf
      rw [process_comment_lf hm, show Byte.toUpper Byte.lf = Byte.lf from rfl, process_comment_lf (hmode.trans hm)]
      exact congrArg (·, s) (upper_fail r .unterminatedComment Byte.lf)
    · rw [process_comment_other hm hclose hlf,
        process_comment_other (hmode.trans hm) (hbyte rfl hclose) (hbyte rfl hlf)]
      exact hpassed
  | lineComment =>
    by_cases hlf : c = Byte.lf
    · subst hlf
      rw [process_lineComment_lf hm, show Byte.toUpper Byte.lf = Byte.lf from rfl,
        process_lineComment_lf (hmode.trans hm)]
      exact endBlock_upper hv hr Byte.lf s
    · rw [process_lineComment_other hm hlf, process_lineComment_other (hmode.trans hm) (hbyte rfl hlf)]
      exact hpassed
  | checksumStart =>
    have hdigit := Byte.isDigit_toUpper c
    cases hc : Byte.isDigit c with
    | true =>
      rw [process_checksumStart_digit hm hc, process_checksumStart_digit (hmode.trans hm) (hdigit.trans hc),
        Byte.toUpper_of_isDigit hc]
      rfl
    | false =>
      rw [process_checksumStart_other hm hc, process_checksumStart_other (hmode.trans hm) (hdigit.trans hc)]
      exact congrArg (·, s) (upper_fail r .invalidCharacter c)
  | checksum =>
    have hdigit := Byte.isDigit_toUpper c
    cases hc : Byte.isDigit c with
    | true =>
      rw [process_checksum_digit hm hc, process_checksum_digit (hmode.trans hm) (hdigit.trans hc),
        Byte.toUpper_of_isDigit hc]
      exact congrArg (·, s) (upper_upper { r with declared := r.declared.map (appendDeclared · c) })
    | false =>
      rw [process_checksum_end hm hc, process_checksum_end (hmode.trans hm) (hdigit.trans hc)]
      exact atGap_upper (r := { r with mode := .gap .afterChecksum }) hl hv rfl .afterChecksum c s
  | programMarker | skipLine =>
    by_cases hlf : c = Byte.lf
    · subst hlf
      rw [process_passed_lf (by simp [hm]), show Byte.toUpper Byte.lf = Byte.lf from rfl,
        process_passed_lf (by simp [hmode, hm])]
      rfl
    · rw [process_passed_other (by simp [hm]) hlf, process_passed_other (by simp [hmode, hm]) (hbyte rfl hlf)]
      exact hpassed
  | failed f =>
    rw [failed_of_mode hm] at hr
    contradiction

/-! ### Two runs -/

theorem upper_advance (r : Reader) (c : UInt8) : (r.upper.advance (Byte.toUpper c)).upper = (r.advance c).upper := by
  have hlf : (Byte.toUpper c == Byte.lf) = (c == Byte.lf) := by
    rw [Bool.eq_iff_iff, beq_iff_eq, beq_iff_eq, Byte.toUpper_eq_iff rfl]
  have hmode : r.mode.upper.upper = r.mode.upper := congrArg Reader.mode (upper_upper r)
  simp only [advance, setPosition, upper, hlf, hmode]
  rfl

/-- A byte in either case does the same to two readers that differ only in what depends on case. -/
theorem feed_congr_upper (hl : rules.acceptLowercase = true) (hv : rules.verifyChecksum = false) {c' : UInt8}
    (h : r.upper = r'.upper) (hc : Byte.toUpper c = Byte.toUpper c') (s : σ) :
    upperOutcome (r.feed rules b c s) = upperOutcome (r'.feed rules b c' s) := by
  have hfailed := failed_congr_upper h
  cases hr : r.failed with
  | true =>
    rw [feed_of_failed hr, feed_of_failed (hfailed ▸ hr)]
    exact congrArg (·, s) h
  | false =>
    have hr' : r'.failed = false := hfailed ▸ hr
    have hadvance : (r.advance c).upper = (r'.advance c').upper := by rw [← upper_advance, h, hc, upper_advance]
    rw [feed_of_not_failed hr, feed_of_not_failed hr', ← process_upper hl hv (r := r.advance c) hr,
      ← process_upper hl hv (r := r'.advance c') hr', hadvance, hc]

theorem feedText_congr_upper (hl : rules.acceptLowercase = true) (hv : rules.verifyChecksum = false) (t : Bytes) :
    ∀ (t' : Bytes) (r r' : Reader) (s : σ), r.upper = r'.upper → Text.upper t = Text.upper t' →
      (feedText rules b t r s).1 = (feedText rules b t' r' s).1 ∧
        upperOutcome (feedText rules b t r s).2 = upperOutcome (feedText rules b t' r' s).2 := by
  induction t with
  | nil =>
    intro t' r r' s h ht
    obtain rfl : t' = [] := by simpa [Text.upper] using ht.symm
    exact ⟨rfl, congrArg (·, s) h⟩
  | cons c t ih =>
    intro t' r r' s h ht
    obtain ⟨c', t', rfl⟩ : ∃ c' u, t' = c' :: u := by
      cases t' with
      | nil => simp [Text.upper] at ht
      | cons c' u => exact ⟨c', u, rfl⟩
    obtain ⟨hc, ht⟩ : Byte.toUpper c = Byte.toUpper c' ∧ Text.upper t = Text.upper t' := by
      simpa [Text.upper] using ht
    have hfeed := feed_congr_upper (b := b) hl hv h hc s
    obtain ⟨hreader, hstate⟩ := upperOutcome_eq_iff.mp hfeed
    have hfailed := failed_congr_upper hreader
    rw [feedText, feedText]
    simp only [← hfailed]
    split_ifs
    · exact ⟨rfl, hfeed⟩
    · rw [← hstate]
      exact ih t' _ _ _ hreader ht

/-- The call with capital letters for small ones. -/
def Call.upper : Call → Call
  | .byte c => .byte (Byte.toUpper c)
  | .text t => .text (Text.upper t)
  | call => call

theorem finish_congr_upper (hl : rules.acceptLowercase = true) (hv : rules.verifyChecksum = false)
    (h : r.upper = r'.upper) (s : σ) :
    upperOutcome (r.finish rules b s) = upperOutcome (r'.finish rules b s) := by
  have hfailed := failed_congr_upper h
  have hcontent : r.hasContent = r'.hasContent := show r.upper.hasContent = r'.upper.hasContent by rw [h]
  have hsame : upperOutcome (r, s) = upperOutcome (r', s) := congrArg (·, s) h
  cases hr : r.failed with
  | true => rwa [Reader.finish, Reader.finish, if_pos hr, if_pos (hfailed ▸ hr)]
  | false =>
    have hr' : r'.failed = false := hfailed ▸ hr
    have hmode : r.mode = r'.mode := by rw [← mode_upper hr, h, mode_upper hr']
    rw [Reader.finish, Reader.finish, hfailed, hmode, hcontent]
    split_ifs
    · exact hsame
    · exact hsame
    · exact feed_congr_upper hl hv h rfl s

/-- A call does the same with its letters in either case, and is answered in the same way. -/
theorem perform_congr_upper (hl : rules.acceptLowercase = true) (hv : rules.verifyChecksum = false) {call call' : Call}
    (h : r.upper = r'.upper) (hcall : call.upper = call'.upper) (s : σ) :
    upperOutcome (perform rules b call r s) = upperOutcome (perform rules b call' r' s) ∧
      answer rules b call r s = answer rules b call' r' s := by
  cases call with
  | byte c =>
    obtain ⟨c', rfl⟩ : ∃ c', call' = .byte c' := by cases call' <;> simp [Call.upper] at hcall ⊢
    have hfeed := feed_congr_upper (b := b) hl hv h (Call.byte.inj hcall) s
    exact ⟨hfeed, congrArg (fun x => some !x) (failed_congr_upper (upperOutcome_eq_iff.mp hfeed).1)⟩
  | text t =>
    obtain ⟨t', rfl⟩ : ∃ t', call' = .text t' := by cases call' <;> simp [Call.upper] at hcall ⊢
    obtain ⟨hanswer, htext⟩ := feedText_congr_upper (b := b) hl hv t t' r r' s h (Call.text.inj hcall)
    exact ⟨htext, congrArg some hanswer⟩
  | finish =>
    obtain rfl : call' = .finish := by cases call' <;> simp [Call.upper] at hcall ⊢
    have hfinish := finish_congr_upper (b := b) hl hv h s
    exact ⟨hfinish, congrArg (fun x => some !x) (failed_congr_upper (upperOutcome_eq_iff.mp hfinish).1)⟩
  | skipBlock =>
    obtain rfl : call' = .skipBlock := by cases call' <;> simp [Call.upper] at hcall ⊢
    have hskip : r.skipBlock = r'.skipBlock := show r.upper.skipBlock = r'.upper.skipBlock by rw [h]
    exact ⟨congrArg (upperOutcome ⟨·, s⟩) hskip, rfl⟩
  | reset =>
    obtain rfl : call' = .reset := by cases call' <;> simp [Call.upper] at hcall ⊢
    exact ⟨rfl, rfl⟩

/-! ### Replies -/

/-- What can be seen of a call, with the capital letter for the byte that a fault names. -/
def Observation.upper (o : Observation) : Observation := { o with fault := o.fault.map Fault.upper }

/-- The reply with the capital letter for the byte that a fault names. -/
def Reply.upper (o : Reply) : Reply := { o with toObservation := o.toObservation.upper }

theorem upper_observation (x : Reader × σ × List (Event × Answer)) :
    (Observation.of x).upper = ⟨x.2.2, x.1.upper.fault?, x.1.upper.line, x.1.upper.column⟩ := by
  rw [fault?_upper]
  rfl

theorem reply_congr_upper (hl : rules.acceptLowercase = true) (hv : rules.verifyChecksum = false) {call call' : Call}
    (h : r.upper = r'.upper) (hcall : call.upper = call'.upper) (s : σ) :
    (reply rules b call r s).upper = (reply rules b call' r' s).upper := by
  have hanswer := (perform_congr_upper (b := b) hl hv h hcall s).2
  obtain ⟨hreader, hstate⟩ :=
    upperOutcome_eq_iff.mp (perform_congr_upper (b := record Prod.mk b) hl hv h hcall (s, [])).1
  simp only [reply, Reply.upper, upper_observation, hreader, hstate, hanswer]

theorem replies_congr_upper (hl : rules.acceptLowercase = true) (hv : rules.verifyChecksum = false)
    (calls : List Call) : ∀ (calls' : List Call) (r r' : Reader) (s : σ), r.upper = r'.upper →
      calls.map Call.upper = calls'.map Call.upper →
      (replies rules b calls r s).map Reply.upper = (replies rules b calls' r' s).map Reply.upper := by
  induction calls with
  | nil =>
    intro calls' r r' s _ hcalls
    obtain rfl : calls' = [] := by simpa using hcalls.symm
    rfl
  | cons call calls ih =>
    intro calls' r r' s h hcalls
    obtain ⟨call', calls', rfl⟩ : ∃ call' rest, calls' = call' :: rest := by
      cases calls' with
      | nil => simp at hcalls
      | cons call' rest => exact ⟨call', rest, rfl⟩
    obtain ⟨hcall, hcalls⟩ := List.cons.inj hcalls
    obtain ⟨hreader, hstate⟩ := upperOutcome_eq_iff.mp (perform_congr_upper (b := b) hl hv h hcall s).1
    rw [replies_cons, replies_cons, List.map_cons, List.map_cons, reply_congr_upper hl hv h hcall, ← hstate,
      ih calls' _ _ _ hreader hcalls]

/-- **The case of letters does not show.** If small letters are accepted and checksums are not verified, the same
calls with letters of their texts in another case get the same replies: the builder is told of the same events, the
answers and the positions are the same, and so are the faults, but for the case of the letter that they name. -/
theorem replies_independent_of_case (rules : Rules) (hl : rules.acceptLowercase = true)
    (hv : rules.verifyChecksum = false) (b : Builder σ) (calls calls' : List Call)
    (hcalls : calls.map Call.upper = calls'.map Call.upper) (s : σ) :
    (replies rules b calls {} s).map Reply.upper = (replies rules b calls' {} s).map Reply.upper :=
  replies_congr_upper hl hv calls calls' {} {} s rfl hcalls

/-- Other letters are small in addresses, in a comment, in a misplaced block number and where a number should be. The
builder refuses the same word, and the same two faults follow. -/
theorem replies_independent_of_case_mixed :
    let rules : Rules := { verifyChecksum := false }
    let calls := [.text (ascii "G1 R2=3 (Note) X5\n"), .skipBlock, .text (ascii "G1 N7"), .skipBlock,
      .text (ascii "\nMm")]
    let calls' := [.text (ascii "g1 r2=3 (nOTE) x5\n"), .skipBlock, .text (ascii "G1 n7"), .skipBlock,
      .text (ascii "\nmM")]
    calls.map Call.upper = calls'.map Call.upper ∧
      (replies rules (refusing 0x58) calls {} ()).map Reply.upper =
        (replies rules (refusing 0x58) calls' {} ()).map Reply.upper := by
  intro rules calls calls'
  have hcalls : calls.map Call.upper = calls'.map Call.upper := by decide
  exact ⟨hcalls, replies_independent_of_case rules rfl rfl (refusing 0x58) calls calls' hcalls ()⟩

end PartProgram.Block
