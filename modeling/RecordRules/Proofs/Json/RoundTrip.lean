import RecordRules.Json.Read
import RecordRules.Proofs.Json.Lexemes

/-!
Documents, written and read.  A document whose strings and numbers can be written is read from its
text, however deep it is and whatever follows it inside another document.
-/

namespace RecordRules

/-- The characters, beside the blanks, that stand where a number does not begin. -/
def Numeral.notFirsts : List Char :=
  ['[', ']', '\x7b', '\x7d', '"', 'n', 't', 'f']

/-- Neither the sign nor a digit is a blank, a bracket, a quote or the letter of a word. -/
theorem Numeral.notBlank_and_notMem_of_first {c : Char} (h : c = '-' ∨ c.isDigit = true) :
    Json.isBlank c = false ∧ c ∉ notFirsts := by
  constructor
  · rw [← Bool.not_eq_true]
    intro hblank
    simp only [Json.isBlank, Bool.or_eq_true, decide_eq_true_eq] at hblank
    rcases hblank with ((rfl | rfl) | rfl) | rfl <;> revert h <;> decide
  · intro hmem
    simp only [notFirsts, List.mem_cons, List.not_mem_nil, or_false] at hmem
    rcases hmem with rfl | rfl | rfl | rfl | rfl | rfl | rfl | rfl <;> revert h <;> decide

/-- A number that can be written begins with its sign or with a digit. -/
theorem Numeral.Writable.exists_first {n : Numeral} (h : n.Writable) :
    ∃ c tail, n.write = c :: tail ∧ Json.isBlank c = false ∧ c ∉ notFirsts := by
  suffices hfirst : ∃ c tail, n.write = c :: tail ∧ (c = '-' ∨ c.isDigit = true) by
    obtain ⟨c, tail, hwritten, hc⟩ := hfirst
    exact ⟨c, tail, hwritten, notBlank_and_notMem_of_first hc⟩
  rw [write_eq]
  cases n.negative with
  | true => exact ⟨'-', _, rfl, .inl rfl⟩
  | false =>
      obtain ⟨c, tail, hc⟩ := List.exists_cons_of_ne_nil h.whole.1
      refine ⟨c, tail ++ _, by rw [hc]; rfl, .inr ?_⟩
      exact h.whole.2 c (by simp [hc])

namespace Json

/-- A document whose strings and numbers can be written. -/
inductive Writable : Json → Prop
  | null : Writable .null
  | bool (b : Bool) : Writable (.bool b)
  | number {n : Numeral} : n.Writable → Writable (.number n)
  | string {units : List StringUnit} : (∀ u ∈ units, u.Writable) → Writable (.string units)
  | array {items : List Json} : (∀ item ∈ items, Writable item) → Writable (.array items)
  | object {members : List (List StringUnit × Json)} :
      (∀ member ∈ members, ∀ u ∈ member.1, u.Writable) →
        (∀ member ∈ members, Writable member.2) → Writable (.object members)

theorem skipBlank_cons {c : Char} (text : List Char) (h : isBlank c = false) :
    skipBlank (c :: text) = c :: text :=
  List.dropWhile_cons_of_neg (by simp [h])

section Lists

variable {α : Type} {write : α → List Char} {r : Reader Unit α} {closing : Char} {a : α}
  {all : List α} {rest : List Char}

def closers : List Char :=
  [']', '\x7d']

/-- Things, each behind a comma, and the closing bracket. -/
def listedBehind (write : α → List Char) (closing : Char) : List α → List Char
  | [] => [closing]
  | a :: others => ',' :: write a ++ listedBehind write closing others

/-- Things with commas between them, and the closing bracket. -/
def listed (write : α → List Char) (closing : Char) : List α → List Char
  | [] => [closing]
  | a :: others => write a ++ listedBehind write closing others

/-- The thing is read as it was written, where no number runs on behind it. -/
def ReadBack (r : Reader Unit α) (write : α → List Char) (a : α) : Prop :=
  ∀ rest, Numeral.Ends rest → r.read (write a ++ rest) = .ok (a, rest)

/-- The text of a thing begins with something else than a blank or a closing bracket. -/
def Begins (text : List Char) : Prop :=
  ∃ c tail, text = c :: tail ∧ isBlank c = false ∧ c ∉ closers

theorem length_lt_listedBehind (h : a ∈ all) :
    (write a).length < (listedBehind write closing all).length := by
  induction all with
  | nil => cases h
  | cons b others ih =>
      simp only [listedBehind, List.length_append, List.length_cons]
      rcases List.mem_cons.1 h with rfl | h
      · omega
      · have := ih h
        omega

/-- Each thing is shorter than the list that it is in. -/
theorem length_lt_listed (h : a ∈ all) : (write a).length < (listed write closing all).length := by
  cases all with
  | nil => cases h
  | cons b others =>
      rw [listed, List.length_append]
      rcases List.mem_cons.1 h with rfl | h
      · cases others with
        | nil => exact Nat.lt_succ_self _
        | cons => simp [listedBehind]
      · have hlength : (write a).length < (listedBehind write closing others).length :=
          length_lt_listedBehind h
        omega

theorem isBlank_closing (hclosing : closing ∈ closers) : isBlank closing = false := by
  simp only [closers, List.mem_cons, List.not_mem_nil, or_false] at hclosing
  rcases hclosing with rfl | rfl <;> rfl

theorem ends_cons {c : Char} (h : c ∈ ',' :: closers) (text : List Char) :
    Numeral.Ends (c :: text) := by
  rintro _ ⟨⟩
  simp only [closers, List.mem_cons, List.not_mem_nil, or_false] at h
  rcases h with rfl | rfl | rfl <;> decide

theorem ends_listedBehind (write : α → List Char) (hclosing : closing ∈ closers)
    (all : List α) (rest : List Char) :
    Numeral.Ends (listedBehind write closing all ++ rest) := by
  cases all with
  | nil => exact ends_cons (List.mem_cons_of_mem _ hclosing) rest
  | cons => exact ends_cons List.mem_cons_self _

/-- No comma stands in front of the closing bracket. -/
theorem comma_after?_closing (hclosing : closing ∈ closers) :
    comma.after? (closing :: rest) = none := by
  have hcomma : closing ≠ ',' := by
    rintro rfl
    exact absurd hclosing (by decide)
  change Lexeme.after? [','] (skipBlank (closing :: rest)) = none
  rw [skipBlank_cons rest (isBlank_closing hclosing), Lexeme.after?, if_neg hcomma.symm]

/-- Things behind commas are read one after the other, up to the closing bracket. -/
theorem more_listedBehind (hclosing : closing ∈ closers)
    (h : ∀ a ∈ all, ReadBack r write a) (found : List α) (rest : List Char) :
    r.more comma found (listedBehind write closing all ++ rest) =
      .ok (found.reverse ++ all, closing :: rest) := by
  induction all generalizing found with
  | nil =>
      have hnone : comma.after? (closing :: rest) = none := comma_after?_closing hclosing
      rw [listedBehind, List.singleton_append, Reader.more]
      split
      · simp
      · next hsome => cases hnone.symm.trans hsome
  | cons a all ih =>
      rw [List.forall_mem_cons] at h
      have hread := h.1 _ (ends_listedBehind write hclosing all rest)
      rw [listedBehind, List.cons_append, List.cons_append, List.append_assoc, Reader.more]
      split
      · next hnone => cases hnone
      · next behind hcomma =>
          cases hcomma
          split
          · next hfail => cases hread.symm.trans hfail
          · next hfound =>
              cases hread.symm.trans hfound
              rw [ih h.2]
              simp

/-- A list of things is read as it was written. -/
theorem readUpTo_listed (hclosing : closing ∈ closers)
    (hbegins : ∀ a ∈ all, Begins (write a)) (h : ∀ a ∈ all, ReadBack r write a)
    (rest : List Char) :
    readUpTo closing r (listed write closing all ++ rest) = .ok (all, rest) := by
  have hclose : Lexeme.after? [closing] (skipBlank (closing :: rest)) = some rest := by
    rw [skipBlank_cons rest (isBlank_closing hclosing)]
    exact Lexeme.after?_eq_some_iff.2 rfl
  cases all with
  | nil => simp only [readUpTo, listed, List.singleton_append, hclose]
  | cons a others =>
      rw [List.forall_mem_cons] at h hbegins
      obtain ⟨c, tail, hwritten, hblank, hbracket⟩ := hbegins.1
      have hopen : Lexeme.after? [closing] (skipBlank (write a ++
          (listedBehind write closing others ++ rest))) = none := by
        rw [hwritten, List.cons_append, skipBlank_cons _ hblank, Lexeme.after?, if_neg]
        rintro rfl
        exact hbracket hclosing
      have hfirst := h.1 _ (ends_listedBehind write hclosing others rest)
      have hothers := more_listedBehind hclosing h.2 [] rest
      simp only [readUpTo, listed, List.append_assoc, hopen, Reader.separated, hfirst, hothers,
        List.reverse_nil, List.nil_append, hclose]

end Lists

theorem writeItems_eq (items : List Json) : writeItems items = listedBehind write ']' items := by
  induction items with
  | nil => rfl
  | cons item items ih => rw [writeItems, listedBehind, ih]

theorem writeMembers_eq (members : List (List StringUnit × Json)) :
    writeMembers members = listedBehind writeMember '\x7d' members := by
  induction members with
  | nil => rfl
  | cons member members ih => rw [writeMembers, listedBehind, ih]

theorem write_array (items : List Json) : write (.array items) = '[' :: listed write ']' items := by
  cases items with
  | nil => rfl
  | cons item items => rw [write, writeItems_eq, listed, List.cons_append]

theorem write_object (members : List (List StringUnit × Json)) :
    write (.object members) = '\x7b' :: listed writeMember '\x7d' members := by
  cases members with
  | nil => rfl
  | cons member members => rw [write, writeMembers_eq, listed, List.cons_append]

/-- The text of a document begins with a bracket that opens, a quote, a letter or a number. -/
theorem Writable.begins {j : Json} (h : j.Writable) : Begins j.write := by
  cases h with
  | null => exact ⟨'n', _, rfl, by decide⟩
  | bool b => cases b <;> exact ⟨_, _, rfl, by decide⟩
  | number hn =>
      obtain ⟨c, tail, hwritten, hblank, hc⟩ := hn.exists_first
      refine ⟨c, tail, hwritten, hblank, fun hclosing => hc ?_⟩
      simp only [closers, List.mem_cons, List.not_mem_nil, or_false] at hclosing
      rcases hclosing with rfl | rfl <;> decide
  | string hunits => exact ⟨'"', _, rfl, by decide⟩
  | array hitems => exact ⟨'[', _, write_array _, by decide⟩
  | object hnames hvalues => exact ⟨'\x7b', _, write_object _, by decide⟩

theorem readMember_writeMember {r : Reader Unit Json} {m : List StringUnit × Json}
    (hname : ∀ u ∈ m.1, u.Writable) (hvalue : ReadBack r write m.2) :
    ReadBack (member r) writeMember m := by
  obtain ⟨name, j⟩ := m
  intro rest hrest
  have hstring := StringUnit.readString?_writeString hname (':' :: (write j ++ rest))
  have hcolon : Lexeme.after? [':'] (skipBlank (':' :: (write j ++ rest))) =
      some (write j ++ rest) := rfl
  change readMember r (writeMember (name, j) ++ rest) = _
  simp only [readMember, writeMember, List.append_assoc, List.cons_append, hstring, hcolon,
    hvalue rest hrest]

section Documents

variable {deeper : Reader Unit Json} {rest : List Char}

theorem readOver_number {n : Numeral} (h : n.Writable) (hrest : Numeral.Ends rest) :
    readOver deeper (n.write ++ rest) = .ok (.number n, rest) := by
  have hread := Numeral.readNumeral?_write h hrest
  obtain ⟨c, tail, hwritten, hblank, hc⟩ := h.exists_first
  simp only [Numeral.notFirsts, List.mem_cons, List.not_mem_nil, or_false, not_or] at hc
  obtain ⟨harray, -, hobject, -, hquote, hn, ht, hf⟩ := hc
  rw [hwritten, List.cons_append] at hread ⊢
  have hatom : readAtom (c :: (tail ++ rest)) = .ok (.number n, rest) := by
    simp [readAtom, Lexeme.after?, Ne.symm hn, Ne.symm ht, Ne.symm hf, hread]
  unfold readOver
  rw [skipBlank_cons _ hblank]
  split
  · next heq => exact absurd (List.cons.inj heq).1 hquote
  · next heq => exact absurd (List.cons.inj heq).1 harray
  · next heq => exact absurd (List.cons.inj heq).1 hobject
  · exact hatom

theorem readOver_string {units : List StringUnit} (h : ∀ u ∈ units, u.Writable) :
    readOver deeper (write (.string units) ++ rest) = .ok (.string units, rest) := by
  have hunits := StringUnit.readUnits?_flatMap_write h [] rest
  rw [List.reverse_nil, List.nil_append] at hunits
  have hwritten : write (.string units) ++ rest =
      '"' :: (units.flatMap StringUnit.write ++ '"' :: rest) := by
    simp [write, StringUnit.writeString]
  rw [hwritten, readOver, skipBlank_cons _ (by decide)]
  simp only [hunits]

theorem readOver_array {items : List Json} (h : ∀ item ∈ items, item.Writable)
    (hread : ∀ item ∈ items, ReadBack deeper write item) :
    readOver deeper (write (.array items) ++ rest) = .ok (.array items, rest) := by
  have hclosing : ']' ∈ closers := by decide
  have hitems := readUpTo_listed hclosing (fun item hitem => (h item hitem).begins) hread rest
  rw [write_array, List.cons_append, readOver, skipBlank_cons _ (by decide)]
  simp only [hitems]

theorem readOver_object {members : List (List StringUnit × Json)}
    (hread : ∀ m ∈ members, ReadBack (member deeper) writeMember m) :
    readOver deeper (write (.object members) ++ rest) = .ok (.object members, rest) := by
  have hbegins : ∀ m ∈ members, Begins (writeMember m) := by
    rintro ⟨name, j⟩ -
    exact ⟨'"', _, rfl, by decide⟩
  have hclosing : '\x7d' ∈ closers := by decide
  have hmembers := readUpTo_listed hclosing hbegins hread rest
  rw [write_object, List.cons_append, readOver, skipBlank_cons _ (by decide)]
  simp only [hmembers]

end Documents

theorem length_lt_write_array {items : List Json} {item : Json} (h : item ∈ items) :
    item.write.length < (write (.array items)).length := by
  rw [write_array]
  exact Nat.lt_succ_of_lt (length_lt_listed h)

theorem length_lt_write_object {members : List (List StringUnit × Json)}
    {m : List StringUnit × Json} (h : m ∈ members) :
    m.2.write.length < (write (.object members)).length := by
  have hmember : m.2.write.length < (writeMember m).length := by
    obtain ⟨name, j⟩ := m
    simp only [writeMember, List.length_append, List.length_cons]
    omega
  rw [write_object]
  exact Nat.lt_succ_of_lt (Nat.lt_trans hmember (length_lt_listed h))

/-- With as many levels as its text has characters, a document is read as it was written. -/
theorem Writable.readBack {levels : Nat} {j : Json} (h : j.Writable)
    (hlevels : j.write.length ≤ levels) : ReadBack (value levels) write j := by
  induction levels generalizing j with
  | zero =>
      obtain ⟨c, tail, hwritten, -⟩ := h.begins
      rw [hwritten] at hlevels
      exact absurd hlevels (Nat.not_succ_le_zero _)
  | succ levels ih =>
      intro rest hrest
      change readOver (value levels) (j.write ++ rest) = .ok (j, rest)
      cases h with
      | null => rfl
      | bool b => cases b <;> rfl
      | number hn => exact readOver_number hn hrest
      | string hunits => exact readOver_string hunits
      | array hitems =>
          refine readOver_array hitems ?_
          intro item hitem
          have hlength := length_lt_write_array hitem
          exact ih (hitems item hitem) (by omega)
      | object hnames hvalues =>
          refine readOver_object ?_
          intro m hm
          have hlength := length_lt_write_object hm
          exact readMember_writeMember (hnames m hm) (ih (hvalues m hm) (by omega))

/-- A document is read from its text. -/
theorem read?_write {j : Json} (h : j.Writable) : read? (String.ofList j.write) = some j := by
  have hread := h.readBack (Nat.le_refl _) [] nofun
  rw [List.append_nil] at hread
  rw [read?, String.toList_ofList, hread]
  rfl

end Json

end RecordRules
