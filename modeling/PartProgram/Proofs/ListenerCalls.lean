import PartProgram.Config.Listener
import PartProgram.Proofs.ConfigurationLines
import Mathlib.Data.List.Induction

/-!
# What a listener is told

A listener that writes down each call with its answer (`Listener.recorded`) is told the same as the listener
itself, so what it wrote is what the listener was told (`calls`). Each line makes calls of its own, with its
number (`made`), and whether there is interest in an assignment is known from the calls that were made before it
(`interested_iff`).

So the calls can be told from the text: headings, assignments in sections that the listener takes an interest in, and
what is wrong, line by line and nothing else.
-/

namespace PartProgram.Config

variable {σ : Type} {listener : Listener σ}

/-! ### The record -/

/-- A call of a listener, with its answer. -/
inductive Call where
  /-- A section starts. -/
  | heading (line : Nat) (name : Bytes) (interested : Bool)
  /-- A name and its value. -/
  | assignment (line : Nat) (name value : Bytes) (usable : Bool)
  /-- Something is wrong. -/
  | report (line : Nat) (complaint : Bytes)
  deriving DecidableEq, Repr

/-- The line that a call is about. -/
def Call.line : Call → Nat
  | .heading n _ _ | .assignment n _ _ _ | .report n _ => n

/-- The listener with a list at which it notes each call and its answer. -/
def Listener.recorded (listener : Listener σ) : Listener (σ × List Call) where
  heading n name := fun (s, notes) =>
    ((listener.heading n name s).1, (listener.heading n name s).2,
      notes ++ [.heading n name (listener.heading n name s).1])
  assignment n name value := fun (s, notes) =>
    ((listener.assignment n name value s).1, (listener.assignment n name value s).2,
      notes ++ [.assignment n name value (listener.assignment n name value s).1])
  report n complaint := fun (s, notes) => (listener.report n complaint s, notes ++ [.report n complaint])

/-- All that a listener is told while it follows a text, in order. -/
def calls (listener : Listener σ) (content : Bytes) (s : σ) : List Call :=
  (follow listener.recorded content (s, [])).2.2

/-- The calls that a line makes. -/
def made (listener : Listener σ) (n : Nat) (p : Progress) (s : σ) : Line → List Call
  | .blank => []
  | .heading name => [.heading n name (listener.heading n name s).1]
  | .brokenHeading => [.report n brokenHeadingText]
  | .malformed => [.report n malformedText]
  | .assignment name value =>
    if p.interested then
      match (listener.assignment n name value s).1 with
      | true => [.assignment n name value true]
      | false => [.assignment n name value false, .report n (unusableText p.current name value)]
    else []

/-- The calls that lines make, the first of which has number `n`. -/
def madeBy (listener : Listener σ) : Nat → Progress → σ → List Line → List Call
  | _, _, _, [] => []
  | n, p, s, line :: rest =>
    made listener n p s line ++
      madeBy listener (n + 1) (present listener n p s line).1 (present listener n p s line).2 rest

theorem present_recorded (n : Nat) (p : Progress) (s : σ) (notes : List Call) (line : Line) :
    present listener.recorded n p (s, notes) line =
      ((present listener n p s line).1, (present listener n p s line).2, notes ++ made listener n p s line) := by
  cases line with
  | blank => simp [present, made]
  | heading name => rfl
  | brokenHeading => rfl
  | malformed => rfl
  | assignment name value =>
    simp only [present, made, Listener.recorded]
    split_ifs
    · rcases listener.assignment n name value s with ⟨_ | _, s'⟩ <;> simp
    · simp

@[simp] theorem presentAll_cons (n : Nat) (p : Progress) (s : σ) (line : Line) (rest : List Line) :
    presentAll listener n p s (line :: rest) =
      presentAll listener (n + 1) (present listener n p s line).1 (present listener n p s line).2 rest := rfl

theorem presentAll_recorded (ls : List Line) : ∀ (n : Nat) (p : Progress) (s : σ) (notes : List Call),
    presentAll listener.recorded n p (s, notes) ls =
      ((presentAll listener n p s ls).1, (presentAll listener n p s ls).2, notes ++ madeBy listener n p s ls) := by
  induction ls with
  | nil => simp [presentAll, madeBy]
  | cons line ls ih =>
    intro n p s notes
    simp only [presentAll_cons, madeBy, present_recorded, ih, List.append_assoc]

theorem follow_eq (listener : Listener σ) (content : Bytes) (s : σ) : follow listener content s =
    ((presentAll listener 1 {} s (statements content)).1.clean,
      (presentAll listener 1 {} s (statements content)).2) := rfl

theorem calls_eq (listener : Listener σ) (content : Bytes) (s : σ) :
    calls listener content s = madeBy listener 1 {} s (statements content) := by
  rw [calls, follow_eq, presentAll_recorded]
  rfl

/-! ### The calls of one line -/

section

variable {n m : Nat} {p : Progress} {s : σ} {line : Line} {name value complaint : Bytes} {b : Bool} {c : Call}

theorem heading_mem_made_iff : .heading m name b ∈ made listener n p s line ↔
    m = n ∧ line = .heading name ∧ (listener.heading n name s).1 = b := by
  cases line with
  | heading name' =>
    simp only [made, List.mem_singleton, Call.heading.injEq, Line.heading.injEq]
    constructor
    · rintro ⟨rfl, rfl, rfl⟩
      exact ⟨rfl, rfl, rfl⟩
    · rintro ⟨rfl, rfl, rfl⟩
      exact ⟨rfl, rfl, rfl⟩
  | assignment name' value' =>
    simp only [made]
    split_ifs
    · split <;> simp
    · simp
  | _ => simp [made]

theorem assignment_mem_made_iff : .assignment m name value b ∈ made listener n p s line ↔
    m = n ∧ line = .assignment name value ∧ p.interested = true ∧ (listener.assignment n name value s).1 = b := by
  cases line with
  | assignment name' value' =>
    simp only [made, Line.assignment.injEq]
    by_cases hp : p.interested
    · rw [if_pos hp]
      constructor
      · intro h
        split at h <;> simp_all
      · rintro ⟨rfl, ⟨rfl, rfl⟩, -, rfl⟩
        split <;> simp_all
    · simp [hp]
  | _ => simp [made]

theorem report_mem_made_iff : .report m complaint ∈ made listener n p s line ↔
    m = n ∧ (line = .brokenHeading ∧ complaint = brokenHeadingText ∨ line = .malformed ∧ complaint = malformedText ∨
      ∃ name value, .assignment n name value false ∈ made listener n p s line ∧
        complaint = unusableText p.current name value) := by
  cases line with
  | assignment name' value' =>
    simp only [made]
    by_cases hp : p.interested
    · rw [if_pos hp]
      split <;> simp
    · simp [hp]
  | _ => simp [made]

theorem line_of_mem_made (h : c ∈ made listener n p s line) : c.line = n := by
  cases c with
  | heading => exact (heading_mem_made_iff.mp h).1
  | assignment => exact (assignment_mem_made_iff.mp h).1
  | report => exact (report_mem_made_iff.mp h).1

end

/-! ### The calls of all lines -/

section

variable {ls : List Line} {s : σ}

/-- How far the listener has come after lines from the start of the text. -/
def after (listener : Listener σ) (s : σ) (ls : List Line) : Progress × σ := presentAll listener 1 {} s ls

theorem presentAll_append (ls ls' : List Line) : ∀ (n : Nat) (p : Progress) (s : σ),
    presentAll listener n p s (ls ++ ls') =
      presentAll listener (n + ls.length) (presentAll listener n p s ls).1 (presentAll listener n p s ls).2 ls' := by
  induction ls with
  | nil => exact fun _ _ _ => rfl
  | cons line ls ih =>
    intro n p s
    rw [List.cons_append, presentAll_cons, ih, List.length_cons, Nat.add_assoc, Nat.add_comm 1]
    rfl

/-- A call is made by one of the lines, after those before it. -/
theorem mem_madeBy_iff {c : Call} : ∀ {ls : List Line} {n : Nat} {p : Progress} {s : σ}, c ∈ madeBy listener n p s ls ↔
    ∃ k line, ls[k]? = some line ∧ c ∈ made listener (n + k) (presentAll listener n p s (ls.take k)).1
      (presentAll listener n p s (ls.take k)).2 line := by
  intro ls
  induction ls with
  | nil => simp [madeBy]
  | cons line ls ih =>
    intro n p s
    rw [madeBy, List.mem_append, ih]
    constructor
    · rintro (h | ⟨k, line', hk, h⟩)
      · exact ⟨0, line, rfl, h⟩
      · exact ⟨k + 1, line', hk, by rwa [Nat.add_right_comm] at h⟩
    · rintro ⟨k, line', hk, h⟩
      cases k with
      | zero =>
        cases hk
        exact Or.inl h
      | succ k => exact Or.inr ⟨k, line', hk, by rwa [Nat.add_right_comm]⟩

theorem line_of_mem_madeBy {c : Call} {n : Nat} {p : Progress} (h : c ∈ madeBy listener n p s ls) :
    n ≤ c.line ∧ c.line < n + ls.length := by
  obtain ⟨k, line, hk, hmade⟩ := mem_madeBy_iff.mp h
  have hlt : k < ls.length := (List.getElem?_eq_some_iff.mp hk).1
  have hline := line_of_mem_made hmade
  omega

/-- The calls of lines, and the calls of one more. -/
theorem madeBy_concat (ls : List Line) (line : Line) : ∀ (n : Nat) (p : Progress) (s : σ),
    madeBy listener n p s (ls ++ [line]) = madeBy listener n p s ls ++
      made listener (n + ls.length) (presentAll listener n p s ls).1 (presentAll listener n p s ls).2 line := by
  induction ls with
  | nil => simp [madeBy, presentAll]
  | cons x ls ih =>
    intro n p s
    rw [List.cons_append, madeBy, ih, madeBy, presentAll_cons, List.length_cons, List.append_assoc, Nat.add_assoc,
      Nat.add_comm 1]

theorem after_concat (ls : List Line) (line : Line) (s : σ) : after listener s (ls ++ [line]) =
    present listener (ls.length + 1) (after listener s ls).1 (after listener s ls).2 line := by
  rw [after, presentAll_append, Nat.add_comm]
  rfl

/-- What was called about the first `k` lines does not depend on the lines after them. -/
theorem mem_madeBy_take {c : Call} {k : Nat} (hk : c.line ≤ k) :
    c ∈ madeBy listener 1 {} s (ls.take k) ↔ c ∈ madeBy listener 1 {} s ls := by
  rw [mem_madeBy_iff, mem_madeBy_iff]
  constructor
  · rintro ⟨i, line, hi, hmade⟩
    obtain ⟨hik, hi⟩ := getElem?_take_iff.mp hi
    rw [List.take_take, Nat.min_eq_left (Nat.le_of_lt hik)] at hmade
    exact ⟨i, line, hi, hmade⟩
  · rintro ⟨i, line, hi, hmade⟩
    have hline := line_of_mem_made hmade
    have hik : i < k := by omega
    refine ⟨i, line, getElem?_take_iff.mpr ⟨hik, hi⟩, ?_⟩
    rwa [List.take_take, Nat.min_eq_left (Nat.le_of_lt hik)]

/-! ### Interest -/

theorem interested_present {n : Nat} {p : Progress} {line : Line} (hline : ¬ line.IsSection) :
    (present listener n p s line).1.interested = p.interested ∧ (present listener n p s line).1.current = p.current := by
  cases line with
  | blank => exact ⟨rfl, rfl⟩
  | heading => exact absurd trivial hline
  | brokenHeading => exact absurd trivial hline
  | malformed => exact ⟨rfl, rfl⟩
  | assignment name value =>
    rw [present]
    split_ifs
    · split <;> exact ⟨rfl, rfl⟩
    · exact ⟨rfl, rfl⟩

/-- There is interest exactly if the last section line is a heading and the listener said yes to it. -/
theorem interested_iff (s : σ) (ls : List Line) : (after listener s ls).1.interested = true ↔
    ∃ i name, Latest ls i (.heading name) ∧ .heading (i + 1) name true ∈ madeBy listener 1 {} s ls := by
  induction ls using List.reverseRecOn with
  | nil => simp [after, presentAll, not_latest_nil]
  | append_singleton ls line ih =>
    rw [after_concat, madeBy_concat]
    by_cases hline : line.IsSection
    · simp only [latest_append_section hline, List.mem_append, heading_mem_made_iff]
      -- The lines before have lower numbers, so only the call of this line counts.
      have hold : ∀ name, Call.heading (ls.length + 1) name true ∉ madeBy listener 1 {} s ls := by
        intro name hmem
        have hlt : ls.length + 1 < 1 + ls.length := (line_of_mem_madeBy hmem).2
        omega
      cases line with
      | heading name =>
        constructor
        · intro h
          exact ⟨ls.length, name, ⟨rfl, rfl⟩, Or.inr ⟨Nat.add_comm _ _, rfl, by rwa [Nat.add_comm]⟩⟩
        · rintro ⟨_, _, ⟨rfl, ⟨rfl⟩⟩, h | ⟨-, -, h⟩⟩
          · exact absurd h (hold _)
          · rwa [Nat.add_comm] at h
      | brokenHeading => simp [present]
      | blank | malformed | assignment => exact absurd hline id
    · rw [(interested_present hline).1, ih]
      simp only [latest_append_other hline, List.mem_append, heading_mem_made_iff]
      refine exists₂_congr fun i name => and_congr_right fun _ => ⟨Or.inl, ?_⟩
      rintro (h | ⟨-, rfl, -⟩)
      · exact h
      · exact absurd trivial hline

/-- The section in which the listener thinks it is. -/
theorem current_eq {i : Nat} {name : Bytes} (h : Latest ls i (.heading name)) :
    (after listener s ls).1.current = name := by
  induction ls using List.reverseRecOn with
  | nil => exact absurd h not_latest_nil
  | append_singleton ls line ih =>
    rw [after_concat]
    by_cases hline : line.IsSection
    · obtain ⟨-, rfl⟩ := (latest_append_section hline).mp h
      rfl
    · rw [(interested_present hline).2]
      exact ih ((latest_append_other hline).mp h)

/-! ### Order and outcome -/

/-- The first of the calls is about an earlier line, or it is the refusal of an assignment and the other the complaint
about it. -/
def Call.Before (c c' : Call) : Prop :=
  c.line < c'.line ∨ c.line = c'.line ∧
    ∃ n name value complaint, c = .assignment n name value false ∧ c' = .report n complaint

theorem pairwise_made (n : Nat) (p : Progress) (s : σ) (line : Line) :
    (made listener n p s line).Pairwise Call.Before := by
  cases line with
  | assignment name value =>
    rw [made]
    split_ifs
    · split
      · simp
      · simp [Call.Before, Call.line]
    · simp
  | _ => simp [made]

theorem pairwise_madeBy (ls : List Line) : ∀ (n : Nat) (p : Progress) (s : σ),
    (madeBy listener n p s ls).Pairwise Call.Before := by
  induction ls with
  | nil => exact fun _ _ _ => .nil
  | cons line ls ih =>
    intro n p s
    rw [madeBy, List.pairwise_append]
    refine ⟨pairwise_made n p s line, ih _ _ _, fun c hc c' hc' => Or.inl ?_⟩
    rw [line_of_mem_made hc]
    exact (line_of_mem_madeBy hc').1

theorem clean_present_iff (n : Nat) (p : Progress) (s : σ) (line : Line) :
    (present listener n p s line).1.clean = true ↔
      p.clean = true ∧ ∀ m complaint, Call.report m complaint ∉ made listener n p s line := by
  cases line with
  | assignment name value =>
    simp only [present, made]
    split_ifs
    · rcases listener.assignment n name value s with ⟨_ | _, s'⟩ <;> simp
    · simp
  | _ => simp [present, made]

theorem clean_presentAll_iff (ls : List Line) : ∀ (n : Nat) (p : Progress) (s : σ),
    (presentAll listener n p s ls).1.clean = true ↔
      p.clean = true ∧ ∀ m complaint, Call.report m complaint ∉ madeBy listener n p s ls := by
  induction ls with
  | nil => simp [presentAll, madeBy]
  | cons line ls ih =>
    intro n p s
    simp only [presentAll_cons, ih, clean_present_iff, madeBy, List.mem_append, not_or, forall_and, and_assoc]

/-! ### Which calls there are -/

section

variable {n : Nat} {name value complaint : Bytes}

theorem heading_mem_madeBy_iff : (∃ b, .heading n name b ∈ madeBy listener 1 {} s ls) ↔
    ∃ k, n = k + 1 ∧ ls[k]? = some (.heading name) := by
  simp only [mem_madeBy_iff, heading_mem_made_iff]
  constructor
  · rintro ⟨b, k, line, hk, rfl, rfl, -⟩
    exact ⟨k, Nat.add_comm 1 k, hk⟩
  · rintro ⟨k, rfl, hk⟩
    exact ⟨_, k, _, hk, Nat.add_comm k 1, rfl, rfl⟩

theorem assignment_mem_madeBy_iff : (∃ b, .assignment n name value b ∈ madeBy listener 1 {} s ls) ↔
    ∃ k, n = k + 1 ∧ ls[k]? = some (.assignment name value) ∧
      ∃ i current, Latest (ls.take k) i (.heading current) ∧
        .heading (i + 1) current true ∈ madeBy listener 1 {} s ls := by
  have hinterest : ∀ k, (after listener s (ls.take k)).1.interested = true ↔
      ∃ i current, Latest (ls.take k) i (.heading current) ∧
        .heading (i + 1) current true ∈ madeBy listener 1 {} s ls := by
    intro k
    rw [interested_iff]
    refine exists₂_congr fun i current => and_congr_right fun hlatest => mem_madeBy_take ?_
    exact (getElem?_take_iff.mp hlatest.1).1
  simp only [← hinterest]
  simp only [mem_madeBy_iff, assignment_mem_made_iff]
  constructor
  · rintro ⟨b, k, line, hk, rfl, rfl, hinterested, -⟩
    exact ⟨k, Nat.add_comm 1 k, hk, hinterested⟩
  · rintro ⟨k, rfl, hk, hinterested⟩
    exact ⟨_, k, _, hk, Nat.add_comm k 1, rfl, hinterested, rfl⟩

theorem report_mem_madeBy_iff : .report n complaint ∈ madeBy listener 1 {} s ls ↔
    ∃ k, n = k + 1 ∧ (ls[k]? = some .brokenHeading ∧ complaint = brokenHeadingText ∨
      ls[k]? = some .malformed ∧ complaint = malformedText ∨
      ∃ name value, .assignment n name value false ∈ madeBy listener 1 {} s ls ∧
        complaint = unusableText (after listener s (ls.take k)).1.current name value) := by
  constructor
  · intro h
    obtain ⟨k, line, hk, hmade⟩ := mem_madeBy_iff.mp h
    obtain ⟨rfl, hcause⟩ := report_mem_made_iff.mp hmade
    refine ⟨k, Nat.add_comm 1 k, ?_⟩
    obtain ⟨rfl, hcomplaint⟩ | ⟨rfl, hcomplaint⟩ | ⟨name, value, hrefused, hcomplaint⟩ := hcause
    · exact Or.inl ⟨hk, hcomplaint⟩
    · exact Or.inr (Or.inl ⟨hk, hcomplaint⟩)
    · exact Or.inr (Or.inr ⟨name, value, mem_madeBy_iff.mpr ⟨k, line, hk, hrefused⟩, hcomplaint⟩)
  · rintro ⟨k, rfl, ⟨hk, hcomplaint⟩ | ⟨hk, hcomplaint⟩ | ⟨name, value, hrefused, hcomplaint⟩⟩
    · exact mem_madeBy_iff.mpr
        ⟨k, _, hk, report_mem_made_iff.mpr ⟨Nat.add_comm k 1, Or.inl ⟨rfl, hcomplaint⟩⟩⟩
    · exact mem_madeBy_iff.mpr
        ⟨k, _, hk, report_mem_made_iff.mpr ⟨Nat.add_comm k 1, Or.inr (Or.inl ⟨rfl, hcomplaint⟩)⟩⟩
    · obtain ⟨k', line, hk', hmade⟩ := mem_madeBy_iff.mp hrefused
      have hline : k + 1 = 1 + k' := line_of_mem_made hmade
      obtain rfl : k = k' := by omega
      rw [hline] at hmade
      exact mem_madeBy_iff.mpr ⟨k, line, hk',
        report_mem_made_iff.mpr ⟨hline, Or.inr (Or.inr ⟨name, value, hmade, hcomplaint⟩)⟩⟩

end

end

/-! ### What a listener is told of a text -/

/-- The calls are those that the text asks for, and `clean` is what is said of them at the end. -/
structure ToldOf (content : Bytes) (calls : List Call) (clean : Bool) : Prop where
  /-- The listener is told of the headings. -/
  heading_iff : ∀ n name, (∃ interested, .heading n name interested ∈ calls) ↔
    ∃ text, Shows content n text ∧ IsSection text ∧ IsClosed text ∧ HasName text name
  /-- It is told of the assignments after a heading to which it said yes, up to the next section line. -/
  assignment_iff : ∀ n name value, (∃ usable, .assignment n name value usable ∈ calls) ↔
    (∃ text, Shows content n text ∧ Assigns text name value) ∧
      ∃ m text current, Governs content m n text ∧ IsClosed text ∧ HasName text current ∧
        .heading m current true ∈ calls
  /-- It hears of headings that are not closed, of lines that are malformed, and of assignments that it refused. -/
  report_iff : ∀ n complaint, .report n complaint ∈ calls ↔
    (∃ text, Shows content n text ∧ IsSection text ∧ ¬ IsClosed text) ∧ complaint = brokenHeadingText ∨
      (∃ text, Shows content n text ∧ IsMalformed text) ∧ complaint = malformedText ∨
      ∃ name value current, .assignment n name value false ∈ calls ∧ StandsIn content n current ∧
        complaint = unusableText current name value
  /-- The calls come in the order of the lines, a complaint after what was refused, and no other two of a line. -/
  in_order : calls.Pairwise Call.Before
  /-- All is well exactly if there was no complaint. -/
  clean_iff : clean = true ↔ ∀ n complaint, .report n complaint ∉ calls

/-- **A listener is told of exactly what the text says.** -/
theorem told_of_text (listener : Listener σ) (content : Bytes) (s : σ) :
    ToldOf content (calls listener content s) (follow listener content s).1 where
  heading_iff n name := by
    rw [calls_eq, heading_mem_madeBy_iff]
    exact statement_heading_iff
  assignment_iff n name value := by
    rw [calls_eq, assignment_mem_madeBy_iff]
    constructor
    · rintro ⟨k, rfl, hk, i, current, hlatest, hcall⟩
      obtain ⟨text, hgoverns, hclosed, hname⟩ := governs_closed_iff.mpr ⟨i, rfl, hlatest⟩
      exact ⟨statement_assignment_iff.mp ⟨k, rfl, hk⟩, i + 1, text, current, hgoverns, hclosed, hname, hcall⟩
    · rintro ⟨hassigns, m, text, current, hgoverns, hclosed, hname, hcall⟩
      obtain ⟨k, rfl, hk⟩ := statement_assignment_iff.mpr hassigns
      obtain ⟨i, rfl, hlatest⟩ := governs_closed_iff.mp ⟨text, hgoverns, hclosed, hname⟩
      exact ⟨k, rfl, hk, i, current, hlatest, hcall⟩
  report_iff n complaint := by
    rw [calls_eq, report_mem_madeBy_iff, ← statement_brokenHeading_iff,
      ← statement_malformed_iff]
    constructor
    · rintro ⟨k, rfl, ⟨hk, hcomplaint⟩ | ⟨hk, hcomplaint⟩ | ⟨name, value, hrefused, hcomplaint⟩⟩
      · exact Or.inl ⟨⟨k, rfl, hk⟩, hcomplaint⟩
      · exact Or.inr (Or.inl ⟨⟨k, rfl, hk⟩, hcomplaint⟩)
      · -- An assignment of which the listener is told stands in a section.
        obtain ⟨_, ⟨rfl⟩, -, i, current, hlatest, -⟩ := assignment_mem_madeBy_iff.mp ⟨false, hrefused⟩
        rw [current_eq hlatest] at hcomplaint
        exact Or.inr (Or.inr ⟨name, value, current, hrefused, standsIn_iff.mpr ⟨i, hlatest⟩, hcomplaint⟩)
    · rintro (⟨⟨k, rfl, hk⟩, hcomplaint⟩ | ⟨⟨k, rfl, hk⟩, hcomplaint⟩ |
        ⟨name, value, current, hrefused, hsection, hcomplaint⟩)
      · exact ⟨k, rfl, Or.inl ⟨hk, hcomplaint⟩⟩
      · exact ⟨k, rfl, Or.inr (Or.inl ⟨hk, hcomplaint⟩)⟩
      · obtain ⟨k, rfl, -⟩ := assignment_mem_madeBy_iff.mp ⟨false, hrefused⟩
        obtain ⟨i, hlatest⟩ := standsIn_iff.mp hsection
        exact ⟨k, rfl, Or.inr (Or.inr ⟨name, value, hrefused, by rw [current_eq hlatest, hcomplaint]⟩)⟩
  in_order := by
    rw [calls_eq]
    exact pairwise_madeBy _ _ _ _
  clean_iff := by
    rw [calls_eq, follow_eq, clean_presentAll_iff]
    simp

end PartProgram.Config
