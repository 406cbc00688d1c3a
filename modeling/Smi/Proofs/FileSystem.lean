import Smi.FileSystem
import Smi.Proofs.OrderedMap
import Smi.Proofs.Outcome

/-!
# Reading after writing

Writing to a path changes what is at the place that the path leads to, and nothing else. Paths lead
to the same places as before, since files take the place of files only.
-/

namespace Smi.FileSystem

variable {fs later : FileSystem} {place other : Place} {content : List UInt8} {path : String}
  {names : List String}

/-! ### Places -/

/-- The place that a path leads to. -/
def locate (fs : FileSystem) (path : String) : Except FileFault Place :=
  if path.isEmpty then .error .notFound else fs.follow (fs.startOf path) (namesOf path)

/-- A file is read from the place that its path leads to. -/
theorem read_eq_ok_iff : fs.read path = .ok content ↔
    ∃ place, fs.locate path = .ok place ∧ fs.entry? place = some (.file content) := by
  unfold read locate
  split
  next => simp [throw, throwThe, MonadExceptOf.throw, bind, Except.bind]
  next =>
    simp only [bind_eq_ok_iff]
    refine exists_congr fun place => and_congr_right fun _ => ?_
    split <;> simp_all

/-- Following one more name needs a directory. -/
theorem follow_cons_eq_ok_iff {name : String} {rest : List String} :
    fs.follow place (name :: rest) = .ok other ↔
      fs.entry? place = some .directory ∧ fs.follow (place.down name) rest = .ok other := by
  rw [follow]
  split <;> simp_all

/-- Names are followed by following the first of them and then the others. -/
theorem follow_append_eq_ok_iff {first rest : List String} :
    fs.follow place (first ++ rest) = .ok other ↔
      ∃ middle, fs.follow place first = .ok middle ∧ fs.follow middle rest = .ok other := by
  induction first generalizing place with
  | nil => simp [follow]
  | cons name others ih =>
    simp only [List.cons_append, follow_cons_eq_ok_iff, ih, and_assoc, exists_and_left]

/-! ### Writing -/

/-- A file is put at one place and all other places keep what they hold. -/
theorem entry_of_put (fs : FileSystem) (place other : Place) (content : List UInt8) :
    FileSystem.entry? (fs.put place content) other =
      if other = place then some (.file content) else fs.entry? other := by
  unfold entry? put
  dsimp only
  rw [List.lookup_cons, OrderedMap.lookup_filter_ne]
  by_cases hother : other = place
  · simp [hother]
  · have hne : (other == place) = false := by simpa using hother
    simp [hne, hother]

/-- A file does not change where names lead, unless it replaces a directory. -/
theorem follow_put_eq_ok_iff {start : Place} (hplace : fs.entry? place ≠ some .directory) :
    (fs.put place content).follow start names = .ok other ↔
      fs.follow start names = .ok other := by
  induction names generalizing start with
  | nil => simp [follow]
  | cons name rest ih =>
    rw [follow_cons_eq_ok_iff, follow_cons_eq_ok_iff, ih, entry_of_put]
    refine and_congr_left fun _ => ?_
    by_cases hstart : start = place
    · rw [if_pos hstart, hstart]
      simp [hplace]
    · rw [if_neg hstart]

/-- A file is written to the place that its path leads to, which is no directory. -/
theorem locate_of_target (h : fs.target path = .ok place) :
    fs.locate path = .ok place ∧ fs.entry? place ≠ some .directory := by
  unfold target at h
  split at h
  next => cases h
  next hpath =>
    obtain ⟨directory, hdirectory, h⟩ := bind_eq_ok_iff.mp h
    split at h
    next => cases h
    next => cases h
    next hentry =>
      split at h
      next => cases h
      next hlength =>
        have hnamed : ((namesOf path).reverse.dropWhile String.isEmpty).reverse = namesOf path := by
          have hsame := (List.dropWhile_suffix String.isEmpty (l := (namesOf path).reverse)
            ).eq_of_length (by simpa using hlength)
          rw [hsame, List.reverse_reverse]
        rw [hnamed] at hdirectory
        obtain ⟨last, hlast, h⟩ := bind_eq_ok_iff.mp h
        rw [hnamed] at hlast
        have hnames : (namesOf path).dropLast ++ (namesOf path).drop ((namesOf path).length - 1) =
            namesOf path := by
          rw [List.dropLast_eq_take, List.take_append_drop]
        have hfollow : fs.follow (fs.startOf path) (namesOf path) = .ok last := by
          rw [← hnames]
          exact follow_append_eq_ok_iff.mpr ⟨directory, hdirectory, hlast⟩
        split at h
        next => cases h
        next hfile =>
          obtain rfl := pure_eq_ok_iff.mp h
          exact ⟨by rw [locate, if_neg hpath, hfollow], hfile⟩

/-- Writing puts the file at the place that its path leads to. -/
theorem write_eq_ok (h : fs.write path content = .ok later) :
    ∃ place, fs.locate path = .ok place ∧ fs.entry? place ≠ some .directory ∧
      later = fs.put place content := by
  obtain ⟨place, htarget, hlater⟩ := bind_eq_ok_iff.mp h
  obtain ⟨hlocate, hentry⟩ := locate_of_target htarget
  exact ⟨place, hlocate, hentry, (pure_eq_ok_iff.mp hlater).symm⟩

/-- After writing, every path leads where it led before. -/
theorem locate_write {written : String} (h : fs.write written content = .ok later) :
    later.locate path = .ok place ↔ fs.locate path = .ok place := by
  obtain ⟨target, _, hentry, rfl⟩ := write_eq_ok h
  unfold locate
  split
  · exact Iff.rfl
  · exact follow_put_eq_ok_iff hentry

/-- What has been written is read. -/
theorem read_of_write (h : fs.write path content = .ok later) : later.read path = .ok content := by
  obtain ⟨place, hlocate, _, rfl⟩ := write_eq_ok h
  refine read_eq_ok_iff.mpr ⟨place, (locate_write h).mpr hlocate, ?_⟩
  rw [entry_of_put, if_pos rfl]

/-- What is at other places is read as before. -/
theorem read_of_write_ne {written : String} {bytes : List UInt8}
    (h : fs.write written content = .ok later)
    (hne : ∀ place, fs.locate written = .ok place → fs.locate path ≠ .ok place) :
    later.read path = .ok bytes ↔ fs.read path = .ok bytes := by
  obtain ⟨target, hlocate, _, rfl⟩ := write_eq_ok h
  rw [read_eq_ok_iff, read_eq_ok_iff]
  refine exists_congr fun place => ?_
  rw [locate_write h, entry_of_put]
  refine and_congr_right fun hplace => ?_
  rw [if_neg]
  rintro rfl
  exact hne place hlocate hplace

end Smi.FileSystem
