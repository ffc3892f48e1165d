import AugLag.Proofs.Json.Numbers

/-!
# Reading back lists and records

The items of a list are read one after the other, so an array is read back if all its elements are, and a record if all
its fields are and no name occurs twice.
-/

namespace AugLag.Json

variable {α σ : Type}

/-! ## Lists -/

/-- Each text takes the state of the reader one step further. -/
inductive Steps (item : σ → Reader σ) : σ → List (List Char) → σ → Prop
  | nil (s : σ) : Steps item s [] s
  | cons {s s' s'' : σ} {text : List Char} {texts : List (List Char)} :
      Reads (item s) text s' → Steps item s' texts s'' → Steps item s (text :: texts) s''

theorem intercalate_cons (text : List Char) (texts : List (List Char)) :
    [','].intercalate (text :: texts) = text ++ texts.flatMap (',' :: ·) := by
  induction texts generalizing text with
  | nil => simp [List.intercalate]
  | cons next texts ih =>
      rw [List.intercalate_cons_cons, ih, List.flatMap_cons]
      simp

/-- A closing mark ends a list. -/
def Closes (c : Char) : Prop := c = ']' ∨ c = '}'

theorem Closes.isSpace_eq_false {c : Char} (h : Closes c) : isSpace c = false := by
  rcases h with rfl | rfl <;> rfl

/-- The items behind the first one, each behind its comma, and the mark that closes the list. -/
theorem Closes.ends {c : Char} (h : Closes c) (texts : List (List Char)) (rest : List Char) :
    Ends (texts.flatMap (',' :: ·) ++ c :: rest) := by
  cases texts with
  | nil => exact ends_cons (.inr h) rest
  | cons text texts => exact ends_cons (.inl rfl) _

theorem length_le_flatMap (texts : List (List Char)) : texts.length ≤ (texts.flatMap (',' :: ·)).length := by
  induction texts with
  | nil => exact le_rfl
  | cons text texts ih =>
      rw [List.flatMap_cons, List.length_append, List.length_cons, List.length_cons]
      omega

section Sequence

variable {close : Char} {item : σ → Reader σ}

theorem run_sequenceStep_close {text rest : List Char} (h : text.dropWhile isSpace = close :: rest) (s : Bool × σ) :
    (sequenceStep close item s).run text = .ok (none, rest) := by
  rw [sequenceStep, run_bind_of_eq_ok (run_peek text), h]
  dsimp only [List.head?_cons]
  rw [if_pos rfl]
  rfl

/-- The first item of a list. -/
theorem run_sequenceStep_first {s s' : σ} {text rest : List Char} (hclose : Closes close) (h : Reads (item s) text s')
    (hrest : Ends rest) : ∃ spaces : List Char, spaces.all isSpace = true ∧
      (sequenceStep close item (false, s)).run (text ++ rest) = .ok (some (true, s'), spaces ++ rest) := by
  obtain ⟨spaces, hspaces, hrun⟩ := h.reads
  obtain ⟨c, more, hdrop, -, hbracket, hbrace⟩ := h.dropWhile_append rest
  refine ⟨spaces, hspaces, ?_⟩
  rw [sequenceStep, run_bind_of_eq_ok (run_peek _), hdrop]
  dsimp only [List.head?_cons]
  rw [if_neg, if_neg Bool.false_ne_true, ← hdrop]
  · refine run_bind_of_eq_ok ((h.skips _).trans (hrun rest hrest))
  · rintro rfl
    rcases hclose with hc | hc
    · exact hbracket hc
    · exact hbrace hc

/-- An item behind a comma. -/
theorem run_sequenceStep_next {s s' : σ} {before text rest : List Char} (hbefore : before.all isSpace = true)
    (hclose : Closes close) (h : Reads (item s) text s') (hrest : Ends rest) :
    ∃ spaces : List Char, spaces.all isSpace = true ∧
      (sequenceStep close item (true, s)).run (before ++ ',' :: (text ++ rest)) = .ok (some (true, s'), spaces ++ rest) := by
  obtain ⟨spaces, hspaces, hrun⟩ := h.reads
  have hdrop := dropWhile_spaces hbefore (rfl : isSpace ',' = false) (text ++ rest)
  refine ⟨spaces, hspaces, ?_⟩
  rw [sequenceStep, run_bind_of_eq_ok (run_peek _), hdrop]
  dsimp only [List.head?_cons]
  rw [if_neg, if_pos rfl]
  · rw [run_bind_of_eq_ok (run_mark (rfl : (',' :: (text ++ rest)).dropWhile isSpace = _)),
      run_bind_of_eq_ok (hrun rest hrest)]
    rfl
  · rintro rfl
    rcases hclose with hc | hc
    · cases hc
    · cases hc

/-- The rest of a list behind an item. -/
theorem Steps.run_loop {s s' : σ} {texts : List (List Char)} (h : Steps item s texts s') (hclose : Closes close)
    {before : List Char} (hbefore : before.all isSpace = true) {count : Nat} (hcount : texts.length < count)
    (rest : List Char) :
    (loop (sequenceStep close item) count (true, s)).run (before ++ (texts.flatMap (',' :: ·) ++ close :: rest)) =
      .ok ((true, s'), rest) := by
  induction h generalizing before count with
  | nil s =>
      obtain ⟨count, rfl⟩ := Nat.exists_eq_add_one.mpr hcount
      exact run_loop_done (run_sequenceStep_close (dropWhile_spaces hbefore hclose.isSpace_eq_false rest) _) count
  | @cons s s' s'' text texts hread _ ih =>
      obtain ⟨count, rfl⟩ := Nat.exists_eq_add_one.mpr ((Nat.zero_le _).trans_lt hcount)
      obtain ⟨spaces, hspaces, hstep⟩ := run_sequenceStep_next hbefore hclose hread (hclose.ends texts rest)
      rw [List.flatMap_cons, List.cons_append, List.cons_append, List.append_assoc, run_loop_step hstep]
      exact ih hspaces (Nat.lt_of_succ_lt_succ hcount)

/-- A list behind its opening mark. -/
theorem Steps.run_sequence {s s' : σ} {texts : List (List Char)} (h : Steps item s texts s') (hclose : Closes close)
    (rest : List Char) :
    (sequence close item s).run ([','].intercalate texts ++ close :: rest) = .ok (s', rest) := by
  have hloop : ∃ flag, (loop (sequenceStep close item) (([','].intercalate texts ++ close :: rest).length + 1)
      (false, s)).run ([','].intercalate texts ++ close :: rest) = .ok ((flag, s'), rest) := by
    cases h with
    | nil s =>
        have hdrop : (close :: rest).dropWhile isSpace = close :: rest :=
          List.dropWhile_cons_of_neg (Bool.eq_false_iff.mp hclose.isSpace_eq_false)
        exact ⟨false, run_loop_done (run_sequenceStep_close hdrop _) _⟩
    | @cons _ s' _ text texts hread hsteps =>
        obtain ⟨spaces, hspaces, hstep⟩ := run_sequenceStep_first hclose hread (hclose.ends texts rest)
        have hlength := length_le_flatMap texts
        refine ⟨true, ?_⟩
        rw [intercalate_cons, List.append_assoc, run_loop_step hstep]
        refine hsteps.run_loop hclose hspaces ?_ rest
        simp only [List.length_append, List.length_cons]
        omega
  obtain ⟨flag, hloop⟩ := hloop
  rw [sequence, run_bind_of_eq_ok ((run_repeatStep _ _ _).trans hloop)]
  rfl

end Sequence

/-! ## Arrays -/

theorem steps_push {element : Reader α} {write : α → List Char} (items : List α)
    (h : ∀ a ∈ items, Reads element (write a) a) (found : Array α) :
    Steps (fun found => element >>= fun a => pure (found.push a)) found (items.map write) (items.foldl Array.push found) := by
  induction items generalizing found with
  | nil => exact .nil found
  | cons a items ih =>
      exact .cons ((h a List.mem_cons_self).map found.push) (ih (fun b hb => h b (List.mem_cons_of_mem _ hb)) _)

/-- A reader that looks for an opening mark, and for what is written behind it. -/
theorem reads_of_opening {r : Reader α} {a : α} {c : Char} {body : List Char} (hskips : SkipsSpaces r)
    (hc : c = '[' ∨ c = '{' ∨ c = '"') (h : ∀ rest, r.run (c :: body ++ rest) = .ok (a, rest)) : Reads r (c :: body) a where
  skips := hskips
  begins := by
    refine ⟨c, ?_, ?_⟩
    · rcases hc with rfl | rfl | rfl <;> rfl
    · rcases hc with rfl | rfl | rfl <;> decide
  reads := ⟨[], rfl, fun rest _ => h rest⟩

theorem reads_array {element : Reader α} {write : α → List Char} {items : Array α}
    (h : ∀ a ∈ items, Reads element (write a) a) : Reads (array element) (writeArray write items) items := by
  refine reads_of_opening (skipsSpaces_peek.bind _) (.inl rfl) fun rest => ?_
  have hsteps := steps_push items.toList (fun a ha => h a (Array.mem_toList_iff.mp ha)) #[]
  have hitems : items.toList.foldl Array.push #[] = items := by
    rw [Array.foldl_toList]
    simpa using @Array.foldl_push_eq_append α α items.size items #[] id rfl
  rw [hitems] at hsteps
  have hrun := hsteps.run_sequence (.inl rfl : Closes ']') rest
  rw [array, run_bind_of_eq_ok (run_peek _)]
  show (sequence ']' _ _).run (([','].intercalate (items.toList.map write) ++ [']']) ++ rest) = _
  rw [List.append_assoc]
  exact hrun

/-! ## Records -/

namespace Fields

variable {fields : Fields σ}

/-- The texts of some members fill in their fields one after the other. -/
inductive Fills (fields : Fields σ) : σ → List (String × List Char) → σ → Prop
  | nil (s : σ) : Fills fields s [] s
  | cons {s s' s'' : σ} {name : String} {text : List Char} {members : List (String × List Char)} :
      Plain name → Reads (fields.read name s) text s' → Fills fields s' members s'' →
        Fills fields s ((name, text) :: members) s''

theorem skipsSpaces_member (s : List String × σ) : SkipsSpaces (fields.member s) :=
  ((skipsSpaces_peek.bind _).bind _).bind _

theorem reads_member {s s' : σ} {found : List String} {name : String} {text : List Char}
    (hname : name ∈ fields.names) (hplain : Plain name) (hnew : name ∉ found) (h : Reads (fields.read name s) text s') :
    Reads (fields.member (found, s)) (writeString name ++ ':' :: text) (name :: found, s') where
  skips := skipsSpaces_member _
  begins := ⟨'"', rfl, by decide⟩
  reads := by
    obtain ⟨spaces, hspaces, hrun⟩ := h.reads
    refine ⟨spaces, hspaces, fun rest hrest => ?_⟩
    have hquoted : (quoted stringBody).run ('"' :: (name.toList ++ '"' :: ':' :: (text ++ rest))) =
        .ok (name, ':' :: (text ++ rest)) := by
      rw [quoted, run_bind_of_eq_ok (run_mark rfl)]
      exact run_stringBody hplain _
    have htext : writeString name ++ ':' :: text ++ rest = '"' :: (name.toList ++ '"' :: ':' :: (text ++ rest)) := by
      rw [writeString_eq hplain]
      simp
    rw [htext, member, run_bind_of_eq_ok hquoted]
    dsimp only
    rw [if_neg (by simpa using hnew), run_bind_of_eq_ok (run_mark rfl), if_pos (by simpa using hname), fill,
      run_bind_of_eq_ok (hrun rest hrest)]
    rfl

theorem Fills.steps {s s' : σ} {members : List (String × List Char)} (h : Fills fields s members s')
    (found : List String) (hnames : ∀ m ∈ members, m.1 ∈ fields.names) (hnew : ∀ m ∈ members, m.1 ∉ found)
    (hnodup : (members.map Prod.fst).Nodup) :
    Steps fields.member (found, s) (members.map fun m => writeString m.1 ++ ':' :: m.2)
      ((members.map Prod.fst).reverse ++ found, s') := by
  induction h generalizing found with
  | nil s => exact .nil _
  | @cons s s' s'' name text members hplain hread _ ih =>
      rw [List.map_cons, List.nodup_cons] at hnodup
      have hname := hnames _ List.mem_cons_self
      refine .cons (reads_member hname hplain (hnew _ List.mem_cons_self) hread) ?_
      have hstep := ih (name :: found) (fun m hm => hnames m (List.mem_cons_of_mem _ hm)) (fun m hm hmem => ?_) hnodup.2
      · rw [List.map_cons, List.reverse_cons, List.append_assoc]
        exact hstep
      · rcases List.mem_cons.mp hmem with heq | hmem
        · exact hnodup.1 (List.mem_map.mpr ⟨m, hm, heq⟩)
        · exact hnew m (List.mem_cons_of_mem _ hm) hmem

/-- A record that is written with all its fields in their order. -/
theorem Fills.run_record {empty s : σ} {members : List (String × List Char)} (h : Fills fields empty members s)
    (hnames : members.map Prod.fst = fields.names) (hnodup : fields.names.Nodup) (rest : List Char) :
    (fields.record empty).run (writeObject members ++ rest) = .ok ((fields.names.reverse, s), rest) := by
  have hsteps := h.steps [] (fun m hm => hnames ▸ List.mem_map_of_mem hm) (fun _ _ => List.not_mem_nil) (hnames ▸ hnodup)
  rw [List.append_nil, hnames] at hsteps
  have hrun := hsteps.run_sequence (.inr rfl : Closes '}') rest
  rw [record, run_bind_of_eq_ok (run_peek _)]
  show (sequence '}' _ _).run (([','].intercalate _ ++ ['}']) ++ rest) = _
  rw [List.append_assoc]
  exact hrun

theorem Fills.reads_record {empty s : σ} {members : List (String × List Char)} (h : Fills fields empty members s)
    (hnames : members.map Prod.fst = fields.names) (hnodup : fields.names.Nodup) :
    Reads (fields.record empty >>= fun p => pure p.2) (writeObject members) s :=
  reads_of_opening ((skipsSpaces_peek.bind _).bind _) (.inr (.inl rfl)) fun rest =>
    run_bind_of_eq_ok (h.run_record hnames hnodup rest)

theorem Fills.reads_complete {empty s : σ} {members : List (String × List Char)} (h : Fills fields empty members s)
    (hnames : members.map Prod.fst = fields.names) (hnodup : fields.names.Nodup) :
    Reads (fields.complete empty) (writeObject members) s := by
  refine reads_of_opening ((skipsSpaces_peek.bind _).bind _) (.inr (.inl rfl)) fun rest => ?_
  refine (run_bind_of_eq_ok (h.run_record hnames hnodup rest)).trans ?_
  dsimp only
  rw [if_pos]
  · rfl
  · simp

end Fields

end AugLag.Json
