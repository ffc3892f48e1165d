import AugLag.Proofs.Json.Records
import AugLag.Proofs.Settings
import AugLag.Workspace.Dump

/-!
# Reading back dumps

A dump is read back as it was written if its counts fit into their widths, its numbers are read back, and its method is
one of those that have a name of their own.
-/

namespace AugLag

open Json

variable {T : Type} [Scalar T] [Numeral T]

/-! ## Matrices -/

namespace SparseMatrix

/-- The counts and indices fit into words. -/
structure FitsWords (M : SparseMatrix T) : Prop where
  rows : M.rows < UInt64.size
  cols : M.cols < UInt64.size
  colPtr : ∀ p ∈ M.colPtr, p < UInt64.size
  rowIdx : ∀ r ∈ M.rowIdx, r < UInt64.size

instance (M : SparseMatrix T) : Decidable M.FitsWords :=
  decidable_of_iff (_ ∧ _ ∧ _ ∧ _) ⟨fun h => ⟨h.1, h.2.1, h.2.2.1, h.2.2.2⟩,
    fun h => ⟨h.rows, h.cols, h.colPtr, h.rowIdx⟩⟩

theorem reads_writeJson {M : SparseMatrix T} (h : M.FitsWords) (hvalues : ∀ x ∈ M.values, ReadsBack x) :
    Reads readJson M.writeJson M := by
  have hfills : jsonFields.Fills (zeros 0 0)
      [("m", writeNat M.rows), ("n", writeNat M.cols), ("colptr", writeArray writeNat M.colPtr),
       ("rowval", writeArray writeNat M.rowIdx), ("nzval", writeArray Numeral.write M.values)] M := by
    refine .cons (by decide) ((reads_natBelow h.rows).map _) ?_
    refine .cons (by decide) ((reads_natBelow h.cols).map _) ?_
    refine .cons (by decide) ((reads_array fun p hp => reads_natBelow (h.colPtr p hp)).map _) ?_
    refine .cons (by decide) ((reads_array fun r hr => reads_natBelow (h.rowIdx r hr)).map _) ?_
    refine .cons (by decide) ((reads_array fun x hx => (hvalues x hx).reads).map _) ?_
    exact .nil _
  exact hfills.reads_complete rfl (by decide : ["m", "n", "colptr", "rowval", "nzval"].Nodup)

end SparseMatrix

/-! ## Settings -/

theorem reads_bool (b : Bool) : Reads bool (writeBool b) b where
  skips := skipsSpaces_ofKind _
  begins := by
    cases b with
    | true => exact ⟨'t', rfl, by decide⟩
    | false => exact ⟨'f', rfl, by decide⟩
  reads := by
    refine ⟨[], rfl, fun rest _ => ?_⟩
    cases b with
    | true => rfl
    | false => rfl

theorem reads_string {s : String} (h : Plain s) : Reads string (writeString s) s := by
  rw [writeString_eq h]
  refine reads_of_opening (skipsSpaces_ofKind _) (.inr (.inr rfl)) fun rest => ?_
  have htext : '"' :: (s.toList ++ ['"']) ++ rest = '"' :: (s.toList ++ '"' :: rest) := by simp
  have hatom : atom.run ('"' :: (s.toList ++ '"' :: rest)) = .ok (.string s, rest) := by
    rw [atom, run_bind_of_eq_ok (run_peek _)]
    refine (run_bind_of_eq_ok (run_advance _ _)).trans ?_
    exact run_bind_of_eq_ok (run_stringBody h rest)
  rw [htext, string, ofKind, run_bind_of_eq_ok hatom]
  rfl

/-- The value fits into the width of its kind, is read back if it is a number, and known if it is a method. -/
def SettingKind.Readable : (k : SettingKind) → k.Value T → Prop
  | .count, (n : Nat) => n < UInt32.size
  | .real, (x : T) => ReadsBack x
  | .time, (x : Float) => ReadsBack x
  | .flag, _ => True
  | .method, (m : Method) => m = .auto ∨ m = .kkt ∨ m = .schur

omit [Scalar T] in
theorem SettingKind.reads_writeJson {k : SettingKind} {v : k.Value T} (h : k.Readable v) :
    Reads k.readJson (k.writeJson v) v := by
  cases k with
  | count => exact reads_natBelow h
  | real => exact ReadsBack.reads h
  | time => exact ReadsBack.reads h
  | flag => exact reads_bool v
  | method =>
      rcases h with rfl | rfl | rfl
      · exact (reads_string (by decide)).map Method.ofString
      · exact (reads_string (by decide)).map Method.ofString
      · exact (reads_string (by decide)).map Method.ofString

namespace Settings

theorem ofName?_name (s : Setting) : Setting.ofName? s.name = some s := by
  cases s <;> decide

theorem plain_name (s : Setting) : Plain s.name := by
  cases s <;> decide

omit [Scalar T] in
theorem fills_all (c : Settings T) (h : ∀ s : Setting, s.kind.Readable (c.get s)) (l : List Setting) (c' : Settings T) :
    jsonFields.Fills c' (l.map fun s => (s.name, s.kind.writeJson (c.get s)))
      (l.foldl (fun c' s => c'.set s (c.get s)) c') := by
  induction l generalizing c' with
  | nil => exact .nil c'
  | cons s l ih =>
      refine .cons (plain_name s) ?_ (ih _)
      simp only [jsonFields, ofName?_name]
      exact (SettingKind.reads_writeJson (h s)).map _

theorem reads_writeJson {c : Settings T} (h : ∀ s : Setting, s.kind.Readable (c.get s)) :
    Reads readJson c.writeJson c := by
  have hfills := fills_all c h Setting.all Settings.default
  rw [foldl_set_get] at hfills
  exact hfills.reads_record (List.map_map ..) (by decide : (Setting.all.map Setting.name).Nodup)

end Settings

/-! ## Dumps -/

namespace Dump

/-- The parts of a dump are read back. -/
structure Readable (d : Dump T) : Prop where
  cost : d.Q.FitsWords
  costValues : ∀ x ∈ d.Q.values, ReadsBack x
  linear : ∀ x ∈ d.q, ReadsBack x
  constraints : d.A.FitsWords
  constraintValues : ∀ x ∈ d.A.values, ReadsBack x
  lower : ∀ x ∈ d.bmin, ReadsBack x
  upper : ∀ x ∈ d.bmax, ReadsBack x
  settings : ∀ s : Setting, s.kind.Readable (d.settings.get s)

theorem reads_writeJson {d : Dump T} (h : d.Readable) : Reads readJson d.writeJson d := by
  have hfills : jsonFields.Fills empty
      [("Q", d.Q.writeJson), ("q", writeArray Numeral.write d.q), ("A", d.A.writeJson),
       ("bmin", writeArray Numeral.write d.bmin), ("bmax", writeArray Numeral.write d.bmax),
       ("settings", d.settings.writeJson)] d := by
    refine .cons (by decide) ((SparseMatrix.reads_writeJson h.cost h.costValues).map _) ?_
    refine .cons (by decide) ((reads_array fun x hx => (h.linear x hx).reads).map _) ?_
    refine .cons (by decide) ((SparseMatrix.reads_writeJson h.constraints h.constraintValues).map _) ?_
    refine .cons (by decide) ((reads_array fun x hx => (h.lower x hx).reads).map _) ?_
    refine .cons (by decide) ((reads_array fun x hx => (h.upper x hx).reads).map _) ?_
    refine .cons (by decide) ((Settings.reads_writeJson h.settings).map _) ?_
    exact .nil _
  exact hfills.reads_complete rfl (by decide : ["Q", "q", "A", "bmin", "bmax", "settings"].Nodup)

/-- A dump is read back as it was written. -/
theorem read_writeJson {d : Dump T} (h : d.Readable) : Json.read readJson (String.ofList d.writeJson) = .ok d :=
  (reads_writeJson h).read

end Dump
end AugLag
