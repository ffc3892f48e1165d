import AugLag.Json.Writer
import AugLag.Proofs.Checks
import Mathlib.Data.List.TakeWhile

/-!
# Reading back what was written

A value is read back from a text if the reader finds the value and takes the whole text, whatever mark comes behind it
(`Reads`). The parts of a list or a record that are read back one after the other are read back together.
-/

namespace AugLag.Json

variable {α β σ : Type}

/-! ## Steps of readers -/

theorem run_bind_of_eq_ok {r : Reader α} {f : α → Reader β} {text rest : List Char} {a : α}
    (h : r.run text = .ok (a, rest)) : (r >>= f).run text = (f a).run rest := by
  rw [StateT.run_bind, h]
  rfl

theorem run_bind_eq_ok {r : Reader α} {f : α → Reader β} {text rest : List Char} {b : β} :
    (r >>= f).run text = .ok (b, rest) ↔
      ∃ a between, r.run text = .ok (a, between) ∧ (f a).run between = .ok (b, rest) := by
  rw [StateT.run_bind]
  cases h : r.run text with
  | error e => exact ⟨nofun, fun ⟨_, _, hr, _⟩ => nomatch hr⟩
  | ok p =>
      refine ⟨fun hf => ⟨p.1, p.2, rfl, hf⟩, ?_⟩
      rintro ⟨a, between, hr, hf⟩
      cases hr
      exact hf

theorem run_peek (text : List Char) :
    peek.run text = .ok ((text.dropWhile isSpace).head?, text.dropWhile isSpace) := rfl

theorem run_advance (c : Char) (text : List Char) : advance.run (c :: text) = .ok ((), text) := rfl

theorem run_next (c : Char) (text : List Char) : next.run (c :: text) = .ok (c, text) := rfl

theorem dropWhile_isSpace_idem (text : List Char) :
    (text.dropWhile isSpace).dropWhile isSpace = text.dropWhile isSpace := by
  induction text with
  | nil => rfl
  | cons c text ih =>
      by_cases hc : isSpace c = true
      · rw [List.dropWhile_cons_of_pos hc, ih]
      · rw [List.dropWhile_cons_of_neg hc, List.dropWhile_cons_of_neg hc]

theorem dropWhile_isSpace_append {text : List Char} (h : text.dropWhile isSpace ≠ []) (rest : List Char) :
    (text ++ rest).dropWhile isSpace = text.dropWhile isSpace ++ rest := by
  rw [List.dropWhile_append, if_neg (by simpa using h)]

theorem dropWhile_spaces {spaces : List Char} (h : spaces.all isSpace = true) {c : Char} (hc : isSpace c = false)
    (rest : List Char) : (spaces ++ c :: rest).dropWhile isSpace = c :: rest := by
  rw [List.dropWhile_append, if_pos, List.dropWhile_cons_of_neg (by simp [hc])]
  rw [List.isEmpty_iff, List.dropWhile_eq_nil_iff]
  exact List.all_eq_true.mp h

/-- Spaces in front make no difference to the reader. -/
def SkipsSpaces (r : Reader α) : Prop := ∀ text, r.run (text.dropWhile isSpace) = r.run text

theorem SkipsSpaces.bind {r : Reader α} (h : SkipsSpaces r) (f : α → Reader β) : SkipsSpaces (r >>= f) := by
  intro text
  rw [StateT.run_bind, StateT.run_bind, h]

theorem skipsSpaces_peek : SkipsSpaces peek := by
  intro text
  rw [run_peek, run_peek, dropWhile_isSpace_idem]

theorem run_mark {c : Char} {text rest : List Char} (h : text.dropWhile isSpace = c :: rest) :
    (mark c).run text = .ok ((), rest) := by
  have hpeek := run_peek text
  rw [h] at hpeek
  rw [mark, run_bind_of_eq_ok hpeek]
  show (if c = c then advance else throw .invalid : Reader Unit).run (c :: rest) = _
  rw [if_pos rfl]
  rfl

/-! ## Loops -/

theorem run_loop_done {step : σ → Reader (Option σ)} {s : σ} {text rest : List Char}
    (h : (step s).run text = .ok (none, rest)) (count : Nat) : (loop step (count + 1) s).run text = .ok (s, rest) := by
  rw [loop, run_bind_of_eq_ok h]
  rfl

theorem run_loop_step {step : σ → Reader (Option σ)} {s s' : σ} {text rest : List Char}
    (h : (step s).run text = .ok (some s', rest)) (count : Nat) :
    (loop step (count + 1) s).run text = (loop step count s').run rest := by
  rw [loop, run_bind_of_eq_ok h]

theorem run_repeatStep (step : σ → Reader (Option σ)) (s : σ) (text : List Char) :
    (repeatStep step s).run text = (loop step (text.length + 1) s).run text := rfl

/-! ## Values -/

/-- Nothing, or a mark that ends a value. -/
def Ends (rest : List Char) : Prop := ∀ c ∈ rest.head?, c = ',' ∨ c = ']' ∨ c = '}'

theorem ends_nil : Ends [] := fun _ hc => nomatch hc

theorem ends_cons {c : Char} (hc : c = ',' ∨ c = ']' ∨ c = '}') (rest : List Char) : Ends (c :: rest) :=
  fun _ hd => Option.some.inj hd ▸ hc

/-- The reader finds the value and takes the text. It may also take or leave spaces. -/
structure Reads (r : Reader α) (text : List Char) (a : α) : Prop where
  skips : SkipsSpaces r
  begins : ∃ c ∈ (text.dropWhile isSpace).head?, c ≠ ',' ∧ c ≠ ']' ∧ c ≠ '}'
  reads : ∃ spaces : List Char, spaces.all isSpace = true ∧
    ∀ rest, Ends rest → r.run (text ++ rest) = .ok (a, spaces ++ rest)

namespace Reads

variable {r : Reader α} {text : List Char} {a : α}

theorem map (h : Reads r text a) (f : α → β) : Reads (r >>= fun a => pure (f a)) text (f a) where
  skips := h.skips.bind _
  begins := h.begins
  reads := by
    obtain ⟨spaces, hspaces, hrun⟩ := h.reads
    refine ⟨spaces, hspaces, fun rest hrest => ?_⟩
    rw [run_bind_of_eq_ok (hrun rest hrest)]
    rfl

/-- What is left of the spaces in front of a text. -/
theorem dropWhile_append (h : Reads r text a) (rest : List Char) :
    ∃ c more, (text ++ rest).dropWhile isSpace = c :: more ∧ c ≠ ',' ∧ c ≠ ']' ∧ c ≠ '}' := by
  obtain ⟨c, hc, hother⟩ := h.begins
  obtain ⟨more, hmore⟩ := List.head?_eq_some_iff.mp hc
  refine ⟨c, more ++ rest, ?_, hother⟩
  rw [dropWhile_isSpace_append (by rw [hmore]; exact nofun), hmore]
  rfl

/-- A value that is alone in its text. -/
theorem read (h : Reads r text a) : Json.read r (String.ofList text) = .ok a := by
  obtain ⟨spaces, hspaces, hrun⟩ := h.reads
  have hrun := hrun [] ends_nil
  rw [List.append_nil, List.append_nil] at hrun
  rw [Json.read, String.toList_ofList, hrun]
  show (if spaces.all isSpace = true then Except.ok a else _) = _
  rw [if_pos hspaces]

end Reads

/-! ## Strings -/

/-- No character has to be written as an escape. -/
def Plain (s : String) : Prop := ∀ c ∈ s.toList, c ≠ '"' ∧ c ≠ '\\' ∧ ¬c < ' '

-- by the characters of the string, not by all characters there are
instance (s : String) : Decidable (Plain s) :=
  List.decidableBAll (fun c => c ≠ '"' ∧ c ≠ '\\' ∧ ¬c < ' ') s.toList

theorem escape_eq {c : Char} (h : c ≠ '"' ∧ c ≠ '\\' ∧ ¬c < ' ') : escape c = [c] := by
  obtain ⟨hquote, hslash, hspace⟩ := h
  unfold escape
  split
  · exact absurd rfl hquote
  · exact absurd rfl hslash
  · exact absurd (by decide) hspace
  · exact absurd (by decide) hspace
  · exact absurd (by decide) hspace
  · exact absurd (by decide) hspace
  · exact absurd (by decide) hspace
  · rw [if_neg hspace]

theorem writeString_eq {s : String} (h : Plain s) : writeString s = '"' :: (s.toList ++ ['"']) := by
  have hflat : ∀ l : List Char, (∀ c ∈ l, c ≠ '"' ∧ c ≠ '\\' ∧ ¬c < ' ') → l.flatMap escape = l := by
    intro l hl
    induction l with
    | nil => rfl
    | cons c l ih =>
        rw [List.flatMap_cons, escape_eq (hl c List.mem_cons_self), ih fun d hd => hl d (List.mem_cons_of_mem _ hd)]
        rfl
  rw [writeString, hflat _ h]
  rfl

theorem run_stringStep (s : String) {c : Char} (h : c ≠ '"' ∧ c ≠ '\\' ∧ ¬c < ' ') (rest : List Char) :
    (stringStep s).run (c :: rest) = .ok (some (s.push c), rest) := by
  obtain ⟨hquote, hslash, hspace⟩ := h
  rw [stringStep, run_bind_of_eq_ok (run_next c rest)]
  split
  · exact absurd rfl hquote
  · exact absurd rfl hslash
  · rw [if_neg hspace]
    rfl

theorem run_loop_stringStep (chars : List Char) (h : ∀ c ∈ chars, c ≠ '"' ∧ c ≠ '\\' ∧ ¬c < ' ') (s : String)
    {count : Nat} (hcount : chars.length < count) (rest : List Char) :
    (loop stringStep count s).run (chars ++ '"' :: rest) = .ok (chars.foldl String.push s, rest) := by
  induction chars generalizing s count with
  | nil =>
      obtain ⟨count, rfl⟩ := Nat.exists_eq_add_one.mpr hcount
      exact run_loop_done rfl count
  | cons c chars ih =>
      obtain ⟨count, rfl⟩ := Nat.exists_eq_add_one.mpr ((Nat.zero_le _).trans_lt hcount)
      rw [List.cons_append, run_loop_step (run_stringStep s (h c List.mem_cons_self) _)]
      exact ih (fun d hd => h d (List.mem_cons_of_mem _ hd)) _ (Nat.lt_of_succ_lt_succ hcount)

theorem toList_foldl_push (chars : List Char) (s : String) : (chars.foldl String.push s).toList = s.toList ++ chars := by
  induction chars generalizing s with
  | nil => exact (List.append_nil _).symm
  | cons c chars ih => rw [List.foldl_cons, ih, String.toList_push, List.append_assoc, List.singleton_append]

theorem run_stringBody {s : String} (h : Plain s) (rest : List Char) :
    stringBody.run (s.toList ++ '"' :: rest) = .ok (s, rest) := by
  have hs : s.toList.foldl String.push "" = s := by
    rw [← String.toList_inj, toList_foldl_push]
    rfl
  rw [stringBody, run_repeatStep, run_loop_stringStep s.toList h "" (by simp), hs]

/-! ## Bytes -/

/-- The bytes of a text are read as the text is. -/
theorem readBytes_toUTF8 {α : Type} (reader : Reader α) (text : String) :
    readBytes reader text.toUTF8 = read reader text := by
  have hvalid : text.toUTF8.IsValidUTF8 := text.isValidUTF8
  have htext : String.fromUTF8? text.toUTF8 = some text := dif_pos hvalid
  rw [readBytes, htext]

end AugLag.Json
