import SourceFront.Command.Directory

/-!
Reading from a directory. A path leads to a file if its steps stay in the directory
but for the last one, which names the file; no other path leads to one. What has been
written to a file is read back under its name.
-/

namespace SourceFront.Command

theorem decode_toUTF8 (text : String) : decode text.toUTF8 = .ok text := by
  have htext : String.fromUTF8? text.toUTF8 = some text := dif_pos text.isValidUTF8
  rw [decode, htext]

namespace Directory

variable {directory : Directory} {name path : String} {names : List String} {spot : Spot}
  {bytes : ByteArray}

/-- Whether a step of a path stays where it is. -/
def IsPoint (name : String) : Prop :=
  name = "" ∨ name = "."

/-- Whether a step of a path may name a file. -/
def IsName (name : String) : Prop :=
  ¬ IsPoint name ∧ name ≠ ".." ∧ name.utf8ByteSize ≤ nameLimit

theorem step_of_isPoint (h : IsPoint name) : directory.step .directory name = .ok .directory :=
  if_pos h

theorem step_of_isName (h : IsName name) :
    directory.step .directory name = directory.enter .directory name := by
  obtain ⟨hpoint, habove, hsize⟩ := h
  rw [IsPoint] at hpoint
  rw [step, if_neg hpoint, if_neg habove, if_neg (Nat.not_lt.mpr hsize)]
  simp

/-- All that a step can lead to. -/
theorem step_cases {spot' : Spot} (h : directory.step spot name = .ok spot') :
    (IsPoint name ∧ spot' = spot) ∨ spot' = .above ∨
      (spot = .directory ∧ IsName name ∧
        ∃ bytes, directory.file? name = some bytes ∧ spot' = .file bytes) := by
  unfold step at h
  split at h
  · cases h
  split at h
  next hpoint => exact .inl ⟨hpoint, (Except.ok.inj h).symm⟩
  split at h
  · exact .inr (.inl (Except.ok.inj h).symm)
  split at h
  · cases h
  next hpoint habove hsize =>
    unfold enter at h
    split at h
    · split at h
      next bytes hbytes =>
        exact .inr (.inr ⟨rfl, ⟨hpoint, habove, Nat.not_lt.mp hsize⟩, bytes, hbytes,
          (Except.ok.inj h).symm⟩)
      · cases h
    · cases h

theorem foldlM_of_isPoint (h : ∀ name ∈ names, IsPoint name) :
    names.foldlM directory.step .directory = .ok .directory := by
  induction names with
  | nil => rfl
  | cons name names ih =>
      obtain ⟨hname, hnames⟩ := List.forall_mem_cons.mp h
      rw [List.foldlM_cons, step_of_isPoint hname]
      exact ih hnames

theorem exists_name_of_foldlM (h : names.foldlM directory.step spot = .ok (.file bytes)) :
    (names = [] ∧ spot = .file bytes) ∨
      (spot = .directory ∧ ∃ points name, names = points ++ [name] ∧
        (∀ point ∈ points, IsPoint point) ∧ IsName name ∧
        directory.file? name = some bytes) := by
  induction names generalizing spot with
  | nil => exact .inl ⟨rfl, Except.ok.inj h⟩
  | cons name names ih =>
      rw [List.foldlM_cons] at h
      cases hstep : directory.step spot name with
      | error => simp [hstep, bind, Except.bind] at h
      | ok spot' =>
          rw [hstep] at h
          have hrest := ih h
          rcases step_cases hstep with ⟨hpoint, rfl⟩ | rfl | ⟨rfl, hname, bytes', hbytes, rfl⟩
          · rcases hrest with ⟨rfl, rfl⟩ | ⟨rfl, points, last, rfl, hpoints, hlast⟩
            · cases hstep
            · exact .inr ⟨rfl, name :: points, last, rfl,
                List.forall_mem_cons.mpr ⟨hpoint, hpoints⟩, hlast⟩
          · simp at hrest
          · obtain ⟨rfl, hsame⟩ : names = [] ∧ Spot.file bytes' = .file bytes := by
              simpa using hrest
            obtain rfl := Spot.file.inj hsame
            exact .inr ⟨rfl, [], name, rfl, by simp, hname, hbytes⟩

theorem find_of_ne (hne : path ≠ "") (hsize : path.utf8ByteSize ≤ pathLimit) :
    directory.find path = (steps path).foldlM directory.step (start path) := by
  rw [find, if_neg hne, if_neg (Nat.not_lt.mpr hsize)]

/-- The paths that lead to a file: points, and then its name. -/
theorem find_eq_file_iff :
    directory.find path = .ok (.file bytes) ↔
      path.utf8ByteSize ≤ pathLimit ∧ path.toList.head? ≠ some '/' ∧
        ∃ points name, steps path = points ++ [name] ∧ (∀ point ∈ points, IsPoint point) ∧
          IsName name ∧ directory.file? name = some bytes := by
  constructor
  · intro h
    have hne : path ≠ "" := by
      rintro rfl
      cases h
    have hsize : path.utf8ByteSize ≤ pathLimit := by
      refine Nat.not_lt.mp fun hsize => ?_
      rw [find, if_neg hne, if_pos hsize] at h
      cases h
    rw [find_of_ne hne hsize] at h
    rcases exists_name_of_foldlM h with ⟨-, hstart⟩ | ⟨hstart, hname⟩
    · unfold start at hstart
      split at hstart <;> cases hstart
    · refine ⟨hsize, fun hslash => ?_, hname⟩
      rw [start, if_pos hslash] at hstart
      cases hstart
  · rintro ⟨hsize, hslash, points, name, hsteps, hpoints, hname, hbytes⟩
    have hne : path ≠ "" := by
      rintro rfl
      obtain ⟨rfl, rfl⟩ : points = [] ∧ name = "" := by
        have hnone : steps "" = [""] := rfl
        rw [hnone, eq_comm, List.append_eq_singleton_iff] at hsteps
        simpa using hsteps
      exact hname.1 (.inl rfl)
    rw [find_of_ne hne hsize, start, if_neg hslash, hsteps, List.foldlM_append,
      foldlM_of_isPoint hpoints]
    show [name].foldlM directory.step .directory = _
    rw [List.foldlM_cons, step_of_isName hname, enter, hbytes]
    rfl

theorem read_eq_ok_iff {text : String} :
    directory.read path = .ok text ↔
      path.utf8ByteSize ≤ pathLimit ∧ path.toList.head? ≠ some '/' ∧
        ∃ points name bytes, steps path = points ++ [name] ∧
          (∀ point ∈ points, IsPoint point) ∧ IsName name ∧
          directory.file? name = some bytes ∧ decode bytes = .ok text := by
  have hread : directory.read path = .ok text ↔
      ∃ bytes, directory.find path = .ok (.file bytes) ∧ decode bytes = .ok text := by
    unfold read
    cases hfind : directory.find path with
    | error => simp [bind, Except.bind]
    | ok spot => cases spot <;> simp [bind, Except.bind]
  simp only [hread, find_eq_file_iff]
  constructor
  · rintro ⟨bytes, ⟨hsize, hslash, points, name, hsteps, hpoints, hname, hbytes⟩, htext⟩
    exact ⟨hsize, hslash, points, name, bytes, hsteps, hpoints, hname, hbytes, htext⟩
  · rintro ⟨hsize, hslash, points, name, bytes, hsteps, hpoints, hname, hbytes, htext⟩
    exact ⟨bytes, ⟨hsize, hslash, points, name, hsteps, hpoints, hname, hbytes⟩, htext⟩

/-- What is read depends on no other files than those that the steps of the path may name. -/
theorem read_congr {directory' : Directory}
    (h : ∀ name ∈ steps path, directory.file? name = directory'.file? name) :
    directory.read path = directory'.read path := by
  have hstep (names : List String) (hnames : ∀ name ∈ names, name ∈ steps path) (spot : Spot) :
      names.foldlM directory.step spot = names.foldlM directory'.step spot := by
    induction names generalizing spot with
    | nil => rfl
    | cons name names ih =>
        obtain ⟨hname, hrest⟩ := List.forall_mem_cons.mp hnames
        have hsame : directory.step spot name = directory'.step spot name := by
          cases spot <;> simp [step, enter, h name hname]
        rw [List.foldlM_cons, List.foldlM_cons, hsame]
        exact bind_congr fun spot' => ih hrest spot'
  have hfind : directory.find path = directory'.find path := by
    rw [find, find, hstep (steps path) (fun _ hmem => hmem)]
  rw [read, read, hfind]

theorem file?_concat (directory : Directory) (name : String) (bytes : ByteArray)
    (name' : String) :
    file? (directory ++ [(name, bytes)]) name' =
      if name' = name then some bytes else directory.file? name' := by
  rw [file?, List.reverse_append, List.reverse_singleton, List.singleton_append,
    List.lookup_cons]
  by_cases hname : name' = name
  · simp [hname]
  · simp [hname, file?, beq_false_of_ne hname]

theorem steps_of_not_mem (h : '/' ∉ name.toList) : steps name = [name] := by
  rw [steps, List.splitOn_eq_singleton h, List.map_singleton, String.ofList_toList]

/-- A text that has been written to a file is read back by every path that leads to it, whatever
has been written before. -/
theorem read_written {points : List String} (directory : Directory) (text : String)
    (hsize : path.utf8ByteSize ≤ pathLimit) (hslash : path.toList.head? ≠ some '/')
    (hsteps : steps path = points ++ [name]) (hpoints : ∀ point ∈ points, IsPoint point)
    (hname : IsName name) : read (directory ++ [(name, text.toUTF8)]) path = .ok text := by
  have hbytes : file? (directory ++ [(name, text.toUTF8)]) name = some text.toUTF8 := by
    rw [file?_concat, if_pos rfl]
  exact read_eq_ok_iff.mpr
    ⟨hsize, hslash, points, name, _, hsteps, hpoints, hname, hbytes, decode_toUTF8 text⟩

theorem read_name (directory : Directory) (text : String) (hname : IsName name)
    (hslash : '/' ∉ name.toList) : read (directory ++ [(name, text.toUTF8)]) name = .ok text := by
  have hsize : name.utf8ByteSize ≤ pathLimit := Nat.le_trans hname.2.2 (by decide)
  have hhead : name.toList.head? ≠ some '/' := fun hhead => hslash (List.mem_of_head? hhead)
  have hpoints : ∀ point ∈ ([] : List String), IsPoint point := by simp
  exact read_written directory text hsize hhead (steps_of_not_mem hslash) hpoints hname

end Directory

end SourceFront.Command
