import AugLag.Proofs.Json.Reading

/-!
# Reading back numbers

A number that is read back when it is alone in its text is also read back in front of a mark, since no mark continues a
number. Natural numbers below the bound of their kind are always read back.
-/

namespace AugLag.Json

variable {α β : Type}

/-! ## Texts that go on with a mark -/

/-- What the reader takes stays the same when the text goes on with a mark. -/
def StopsAtMarks (r : Reader α) : Prop :=
  ∀ text a rest, r.run text = .ok (a, rest) → ∀ more, Ends more → r.run (text ++ more) = .ok (a, rest ++ more)

theorem stopsAtMarks_pure (a : α) : StopsAtMarks (pure a) := by
  rintro text b rest h more -
  cases h
  rfl

theorem stopsAtMarks_throw (e : Fault) : StopsAtMarks (throw e : Reader α) := fun _ _ _ h => nomatch h

theorem StopsAtMarks.bind {r : Reader α} {f : α → Reader β} (h : StopsAtMarks r) (hf : ∀ a, StopsAtMarks (f a)) :
    StopsAtMarks (r >>= f) := by
  intro text b rest hrun more hmore
  obtain ⟨a, between, hr, hfa⟩ := run_bind_eq_ok.mp hrun
  rw [run_bind_of_eq_ok (h text a between hr more hmore)]
  exact hf a between b rest hfa more hmore

theorem StopsAtMarks.unless {next : Unit → Reader β} (h : StopsAtMarks (next ())) (c : Prop) [Decidable c] (e : Fault) :
    StopsAtMarks (if c then throw e >>= next else next ()) := by
  split
  · exact (stopsAtMarks_throw e).bind fun _ => h
  · exact h

theorem run_digits_eq_ok {text found rest : List Char} :
    digits.run text = .ok (found, rest) ↔
      found = text.takeWhile Char.isDigit ∧ found ≠ [] ∧ rest = text.dropWhile Char.isDigit := by
  unfold digits
  rw [run_bind_eq_ok]
  constructor
  · rintro ⟨_, _, hget, hrun⟩
    cases hget
    dsimp only at hrun
    split at hrun
    · obtain ⟨_, _, hthrow, -⟩ := run_bind_eq_ok.mp hrun
      cases hthrow
    · next hfound =>
        cases hrun
        exact ⟨rfl, fun hnil => hfound (List.isEmpty_iff.mpr hnil), rfl⟩
  · rintro ⟨rfl, hne, rfl⟩
    refine ⟨text, text, rfl, ?_⟩
    dsimp only
    rw [if_neg (by simpa using hne)]
    rfl

theorem Ends.takeWhile_eq {more : List Char} (h : Ends more) {test : Char → Bool}
    (htest : ∀ c, c = ',' ∨ c = ']' ∨ c = '}' → test c = false) :
    more.takeWhile test = [] ∧ more.dropWhile test = more := by
  cases more with
  | nil => exact ⟨rfl, rfl⟩
  | cons c more =>
      have hc : ¬test c = true := Bool.eq_false_iff.mp (htest c (h c rfl))
      exact ⟨List.takeWhile_cons_of_neg hc, List.dropWhile_cons_of_neg hc⟩

theorem isDigit_mark (c : Char) (hc : c = ',' ∨ c = ']' ∨ c = '}') : c.isDigit = false := by
  rcases hc with rfl | rfl | rfl <;> rfl

theorem stopsAtMarks_digits : StopsAtMarks digits := by
  intro text found rest h more hmore
  obtain ⟨rfl, hne, rfl⟩ := run_digits_eq_ok.mp h
  obtain ⟨htake, hdrop⟩ := hmore.takeWhile_eq isDigit_mark
  refine run_digits_eq_ok.mpr ⟨?_, hne, ?_⟩
  · rw [List.takeWhile_append, htake, List.append_nil]
    split
    · next hlength => exact (List.takeWhile_prefix _).eq_of_length hlength
    · rfl
  · rw [List.dropWhile_append, hdrop]
    split
    · next hempty => rw [List.isEmpty_iff.mp hempty, List.nil_append]
    · rfl

theorem run_accept_nil (test : Char → Bool) : (accept test).run [] = .ok (none, []) := rfl

theorem run_accept_cons (test : Char → Bool) (c : Char) (rest : List Char) :
    (accept test).run (c :: rest) = if test c then .ok (some c, rest) else .ok (none, c :: rest) := by
  show (if test c then _ else _ : Reader (Option Char)).run (c :: rest) = _
  split
  · rfl
  · rfl

/-- No mark is accepted. -/
theorem Ends.run_accept {more : List Char} (h : Ends more) {test : Char → Bool}
    (htest : ∀ c, c = ',' ∨ c = ']' ∨ c = '}' → test c = false) : (accept test).run more = .ok (none, more) := by
  cases more with
  | nil => rfl
  | cons c more => rw [run_accept_cons, if_neg (Bool.eq_false_iff.mp (htest c (h c rfl)))]

theorem stopsAtMarks_accept {test : Char → Bool} (htest : ∀ c, c = ',' ∨ c = ']' ∨ c = '}' → test c = false) :
    StopsAtMarks (accept test) := by
  intro text a rest h more hmore
  cases text with
  | nil =>
      cases h
      exact hmore.run_accept htest
  | cons c text =>
      rw [run_accept_cons] at h
      rw [List.cons_append, run_accept_cons]
      split at h
      · next hc =>
          cases h
          rw [if_pos hc]
      · next hc =>
          cases h
          rw [if_neg hc]
          rfl

theorem sign_mark (c : Char) (hc : c = ',' ∨ c = ']' ∨ c = '}') : (c == '-') = false := by
  rcases hc with rfl | rfl | rfl <;> rfl

theorem point_mark (c : Char) (hc : c = ',' ∨ c = ']' ∨ c = '}') : (c == '.') = false := by
  rcases hc with rfl | rfl | rfl <;> rfl

theorem exponent_mark (c : Char) (hc : c = ',' ∨ c = ']' ∨ c = '}') : (c == 'e' || c == 'E') = false := by
  rcases hc with rfl | rfl | rfl <;> rfl

theorem exponentSign_mark (c : Char) (hc : c = ',' ∨ c = ']' ∨ c = '}') : (c == '+' || c == '-') = false := by
  rcases hc with rfl | rfl | rfl <;> rfl

theorem stopsAtMarks_exponent (negative : Bool) (whole fraction : List Char) : StopsAtMarks (do
    let mark ← accept fun c => c == 'e' || c == 'E'
    let exponent ← match mark with
      | some _ => do
        let sign ← accept fun c => c == '+' || c == '-'
        let size := digitsValue (← digits)
        pure (some (if sign = some '-' then -(size : Int) else size))
      | none => pure none
    pure
      { negative, digits := digitsValue (whole ++ fraction), exponent := exponent.getD 0 - fraction.length,
        whole := fraction.isEmpty && exponent.isNone : Literal }) := by
  refine (stopsAtMarks_accept exponent_mark).bind fun mark => ?_
  cases mark with
  | none => exact (stopsAtMarks_pure _).bind fun _ => stopsAtMarks_pure _
  | some c =>
      refine (stopsAtMarks_accept exponentSign_mark).bind fun sign => stopsAtMarks_digits.bind fun size => ?_
      exact (stopsAtMarks_pure _).bind fun _ => stopsAtMarks_pure _

theorem stopsAtMarks_literal : StopsAtMarks literal := by
  unfold literal
  refine (stopsAtMarks_accept sign_mark).bind fun negative => stopsAtMarks_digits.bind fun whole => ?_
  refine StopsAtMarks.unless ?_ _ _
  refine (stopsAtMarks_accept point_mark).bind fun point => ?_
  cases point with
  | none => exact (stopsAtMarks_pure _).bind (stopsAtMarks_exponent negative.isSome whole)
  | some c => exact stopsAtMarks_digits.bind (stopsAtMarks_exponent negative.isSome whole)

/-! ## Numbers that are read back -/

theorem skipsSpaces_ofKind (pick : Atom → Option α) : SkipsSpaces (ofKind pick) :=
  (skipsSpaces_peek.bind _).bind _

/-- The characters that numbers begin with. -/
def StartsNumber (c : Char) : Prop := (c == '-' || c.isDigit) = true

theorem StartsNumber.ne {c : Char} (h : StartsNumber c) {d : Char} (hd : (d == '-' || d.isDigit) = false) : c ≠ d := by
  rintro rfl
  exact absurd (h.symm.trans hd) nofun

theorem StartsNumber.isSpace_eq_false {c : Char} (h : StartsNumber c) : isSpace c = false := by
  simp only [isSpace, Bool.or_eq_false_iff, beq_eq_false_iff_ne]
  exact ⟨⟨⟨h.ne rfl, h.ne rfl⟩, h.ne rfl⟩, h.ne rfl⟩

theorem run_atom {text more : List Char} {c : Char} (h : text.dropWhile isSpace = c :: more) (hc : StartsNumber c) :
    atom.run text = (literal >>= fun n => pure (.number n)).run (c :: more) := by
  rw [atom, run_bind_of_eq_ok (run_peek text), h]
  dsimp only [List.head?_cons]
  split
  · next hnone => cases hnone
  · next heq => exact absurd (Option.some.inj heq) (hc.ne rfl)
  · next heq => exact absurd (Option.some.inj heq) (hc.ne rfl)
  · next heq => exact absurd (Option.some.inj heq) (hc.ne rfl)
  · next heq => exact absurd (Option.some.inj heq) (hc.ne rfl)
  · next heq =>
      obtain rfl := Option.some.inj heq
      rw [if_pos (show (_ || _) = true from hc)]

theorem startsNumber_of_atom {text rest : List Char} {n : Literal} (h : atom.run text = .ok (.number n, rest)) :
    ∃ c more, text.dropWhile isSpace = c :: more ∧ StartsNumber c := by
  rw [atom, run_bind_of_eq_ok (run_peek text)] at h
  split at h
  · cases h
  · obtain ⟨_, _, -, hpure⟩ := run_bind_eq_ok.mp h
    cases hpure
  · obtain ⟨_, _, -, hpure⟩ := run_bind_eq_ok.mp h
    cases hpure
  · obtain ⟨_, _, -, hpure⟩ := run_bind_eq_ok.mp h
    cases hpure
  · obtain ⟨_, _, -, hstring⟩ := run_bind_eq_ok.mp h
    obtain ⟨_, _, -, hpure⟩ := run_bind_eq_ok.mp hstring
    cases hpure
  · next c _ _ _ _ heq =>
      split at h
      · next hc =>
          obtain ⟨more, hmore⟩ := List.head?_eq_some_iff.mp heq
          exact ⟨c, more, hmore, hc⟩
      · cases h

/-- A number is a literal behind spaces. -/
theorem run_number_eq_ok {convert : Literal → Option α} {text rest : List Char} {a : α} :
    (number convert).run text = .ok (a, rest) ↔
      ∃ c more n, text.dropWhile isSpace = c :: more ∧ StartsNumber c ∧ literal.run (c :: more) = .ok (n, rest) ∧
        convert n = some a := by
  rw [number, ofKind, run_bind_eq_ok]
  constructor
  · rintro ⟨value, between, hatom, hpick⟩
    cases value with
    | number n =>
        obtain ⟨c, more, hdrop, hc⟩ := startsNumber_of_atom hatom
        rw [run_atom hdrop hc] at hatom
        obtain ⟨n', _, hliteral, hpure⟩ := run_bind_eq_ok.mp hatom
        cases hpure
        dsimp only at hpick
        split at hpick
        · next hconvert =>
            cases hpick
            exact ⟨c, more, n, hdrop, hc, hliteral, hconvert⟩
        · cases hpick
    | null => cases hpick
    | bool b => cases hpick
    | string s => cases hpick
  · rintro ⟨c, more, n, hdrop, hc, hliteral, hconvert⟩
    refine ⟨.number n, rest, ?_, ?_⟩
    · rw [run_atom hdrop hc, run_bind_of_eq_ok hliteral]
      rfl
    · dsimp only
      rw [hconvert]
      rfl

/-- A number that is read to the end of a text. -/
theorem reads_number {convert : Literal → Option α} {text spaces : List Char} {a : α}
    (hspaces : spaces.all isSpace = true) (h : (number convert).run text = .ok (a, spaces)) : Reads (number convert) text a where
  skips := skipsSpaces_ofKind _
  begins := by
    obtain ⟨c, more, -, hdrop, hc, -⟩ := run_number_eq_ok.mp h
    exact ⟨c, by rw [hdrop]; rfl, hc.ne rfl, hc.ne rfl, hc.ne rfl⟩
  reads := by
    refine ⟨spaces, hspaces, fun rest hrest => ?_⟩
    obtain ⟨c, more, n, hdrop, hc, hliteral, hconvert⟩ := run_number_eq_ok.mp h
    refine run_number_eq_ok.mpr ⟨c, more ++ rest, n, ?_, hc, stopsAtMarks_literal _ _ _ hliteral rest hrest, hconvert⟩
    rw [dropWhile_isSpace_append (by rw [hdrop]; exact nofun), hdrop]
    rfl

/-- The value is read back from its text when it is alone. -/
def ReadsBack {T : Type} [Numeral T] (x : T) : Prop := Json.read numeral (String.ofList (Numeral.write x)) = .ok x

instance {T : Type} [Numeral T] [DecidableEq T] (x : T) : Decidable (ReadsBack x) := inferInstanceAs (Decidable (_ = _))

theorem ReadsBack.reads {T : Type} [Numeral T] {x : T} (h : ReadsBack x) : Reads numeral (Numeral.write x) x := by
  unfold ReadsBack Json.read at h
  rw [String.toList_ofList] at h
  obtain ⟨⟨a, rest⟩, hrun, h⟩ := bind_eq_ok.mp h
  dsimp only at h
  split at h
  · next hspaces =>
      cases h
      exact reads_number hspaces hrun
  · cases h

/-! ## Natural numbers -/

theorem head?_toDigits_ne_zero {n : Nat} (hn : 0 < n) : (Nat.toDigits 10 n).head? ≠ some '0' := by
  induction n using Nat.strongRecOn with
  | ind n ih =>
      by_cases hlt : n < 10
      · rw [Nat.toDigits_of_lt_base hlt]
        interval_cases n <;> decide
      · rw [Nat.toDigits_of_base_le (by omega) (by omega), List.head?_append_of_ne_nil _ Nat.toDigits_ne_nil]
        exact ih (n / 10) (by omega) (by omega)

theorem isDigit_writeNat {n : Nat} {c : Char} (hc : c ∈ writeNat n) : c.isDigit = true :=
  Nat.isDigit_of_mem_toDigits (by decide : 0 < 10) le_rfl hc

theorem run_literal_writeNat (n : Nat) :
    literal.run (writeNat n) = .ok ({ negative := false, digits := n, exponent := 0, whole := true }, []) := by
  have hall : ∀ c ∈ writeNat n, c.isDigit = true := fun _ => isDigit_writeNat
  have hsign : (accept (· == '-')).run (writeNat n) = .ok (none, writeNat n) := by
    cases hdigits : writeNat n with
    | nil => rfl
    | cons c more =>
        have hc : c ≠ '-' := by
          rintro rfl
          exact absurd (hall '-' (by simp [hdigits])) (by decide)
        rw [run_accept_cons, if_neg (by simpa using hc)]
  have hdigits : digits.run (writeNat n) = .ok (writeNat n, []) :=
    run_digits_eq_ok.mpr ⟨(List.takeWhile_eq_self_iff.mpr hall).symm, Nat.toDigits_ne_nil,
      (List.dropWhile_eq_nil_iff.mpr hall).symm⟩
  have hzero : ¬(decide ((writeNat n).head? = some '0') && decide (1 < (writeNat n).length)) = true := by
    rw [Bool.and_eq_true, decide_eq_true_eq, decide_eq_true_eq]
    rintro ⟨hhead, hlength⟩
    rcases Nat.eq_zero_or_pos n with rfl | hn
    · exact absurd hlength (by decide)
    · exact head?_toDigits_ne_zero hn hhead
  have hvalue : digitsValue (writeNat n ++ []) = n := by
    rw [List.append_nil]
    exact Nat.ofDigitChars_toDigits (by decide) (by decide)
  rw [literal, run_bind_of_eq_ok hsign, run_bind_of_eq_ok hdigits]
  dsimp only
  rw [if_neg hzero, run_bind_of_eq_ok (run_accept_nil _)]
  dsimp only
  rw [run_bind_of_eq_ok (rfl : (pure [] : Reader (List Char)).run [] = _), run_bind_of_eq_ok (run_accept_nil _)]
  dsimp only
  rw [run_bind_of_eq_ok (rfl : (pure none : Reader (Option Int)).run [] = _), hvalue]
  rfl

theorem reads_natBelow {n bound : Nat} (h : n < bound) : Reads (natBelow bound) (writeNat n) n := by
  refine reads_number (rfl : [].all isSpace = true) (run_number_eq_ok.mpr ?_)
  have hrun := run_literal_writeNat n
  cases hdigits : writeNat n with
  | nil => exact absurd hdigits Nat.toDigits_ne_nil
  | cons c more =>
      have hc : c.isDigit = true := isDigit_writeNat (hdigits ▸ List.mem_cons_self)
      have hstarts : StartsNumber c := by rw [StartsNumber, hc, Bool.or_true]
      rw [hdigits] at hrun
      refine ⟨c, more, _, ?_, hstarts, hrun, if_pos (by simpa using h)⟩
      rw [List.dropWhile_cons_of_neg (Bool.eq_false_iff.mp hstarts.isSpace_eq_false)]

end AugLag.Json
