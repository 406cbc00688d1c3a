import Mathlib.Data.List.Dedup
import Smi.Cache.Basic
import Smi.Proofs.Text.Utf8

/-!
# What a fingerprint tells

A fingerprint is the digest of the names and contents of files, one behind the other in the order of
the names. Neither the borders between them nor the order of files with the same name are marked. So
the octets tell which files they come from as far as the borders are known, and they are the same
for every order of the files as far as those with the same name can be exchanged.
-/

namespace Smi.Cache

variable {files others : List (String × List UInt8)} {name : String}

/-- The octets of a file: its name and its content. -/
def portion (file : String × List UInt8) : List UInt8 :=
  Text.octets file.1 ++ file.2

/-- The files in the order of their names. -/
def byName (files : List (String × List UInt8)) : List (String × List UInt8) :=
  files.mergeSort fun a b => a.1 ≤ b.1

/-- The files with a name, as they are listed. -/
def called (name : String) (files : List (String × List UInt8)) : List (String × List UInt8) :=
  files.filter fun file => file.1 = name

/-- The octets of the files with a name, as they are listed. -/
def joined (name : String) (files : List (String × List UInt8)) : List UInt8 :=
  (called name files).flatMap portion

/-- Where the borders lie: the names and the lengths of the contents, in the order of the names. -/
def outline (files : List (String × List UInt8)) : List (String × Nat) :=
  (byName files).map fun file => (file.1, file.2.length)

/-- Fingerprints of files are taken of the same octets if the portions of their sorted files join to
the same octets. -/
theorem fingerprintInput_eq_iff : fingerprintInput files = fingerprintInput others ↔
    (byName files).flatMap portion = (byName others).flatMap portion :=
  List.append_right_inj _

/-! ### The order of the names -/

/-- Whether files are in the order of their names. -/
def Ordered (files : List (String × List UInt8)) : Prop :=
  files.Pairwise fun a b => a.1 ≤ b.1

/-- The order of files by their names is transitive. -/
theorem decide_name_trans (a b c : String × List UInt8) (hab : decide (a.1 ≤ b.1) = true)
    (hbc : decide (b.1 ≤ c.1) = true) : decide (a.1 ≤ c.1) = true :=
  decide_eq_true (String.le_trans (of_decide_eq_true hab) (of_decide_eq_true hbc))

/-- Of two files one comes no later than the other by its name. -/
theorem decide_name_total (a b : String × List UInt8) :
    (decide (a.1 ≤ b.1) || decide (b.1 ≤ a.1)) = true := by
  simpa using String.le_total a.1 b.1

/-- Sorting files by their names keeps every file. -/
theorem byName_perm (files : List (String × List UInt8)) : (byName files).Perm files :=
  List.mergeSort_perm _ _

/-- Files sorted by their names stand in the order of their names. -/
theorem byName_ordered (files : List (String × List UInt8)) : Ordered (byName files) :=
  (List.pairwise_mergeSort decide_name_trans decide_name_total files).imp of_decide_eq_true

/-- Files with the same name stay in the order in which they are listed. -/
theorem called_byName (name : String) (files : List (String × List UInt8)) :
    called name (byName files) = called name files := by
  have hsame : (called name files).Pairwise fun a b => decide (a.1 ≤ b.1) = true := by
    refine List.pairwise_of_forall_mem_list fun a ha b hb => decide_eq_true ?_
    have hname : a.1 = name := of_decide_eq_true (List.mem_filter.mp ha).2
    have hother : b.1 = name := of_decide_eq_true (List.mem_filter.mp hb).2
    exact hname.trans hother.symm ▸ String.le_refl a.1
  have hstable := (List.sublist_mergeSort decide_name_trans decide_name_total hsame
    List.filter_sublist).filter fun file => file.1 = name
  have hself : (called name files).filter (fun file => file.1 = name) = called name files :=
    List.filter_eq_self.mpr fun file hfile => (List.mem_filter.mp hfile).2
  rw [hself] at hstable
  exact (hstable.eq_of_length ((byName_perm files).filter _).length_eq.symm).symm

/-- Files in the order of their names begin with those that have the first name. -/
theorem Ordered.eq_called_append (h : Ordered files) (hleast : ∀ file ∈ files, name ≤ file.1) :
    files = called name files ++ files.filter fun file => ¬file.1 = name := by
  induction files with
  | nil => rfl
  | cons first rest ih =>
    obtain ⟨hfirst, hrest⟩ := List.pairwise_cons.mp h
    obtain ⟨hle, hothers⟩ := List.forall_mem_cons.mp hleast
    by_cases hsame : first.1 = name
    · rw [called, List.filter_cons_of_pos (by simpa using hsame),
        List.filter_cons_of_neg (by simpa using hsame), List.cons_append]
      exact congrArg (first :: ·) (ih hrest hothers)
    · -- Behind another name than the first, the first one does not follow.
      have hnone : ∀ file ∈ first :: rest, ¬file.1 = name := by
        refine List.forall_mem_cons.mpr ⟨hsame, fun file hfile hname => hsame ?_⟩
        exact String.le_antisymm (hname ▸ hfirst file hfile) hle
      have hcalled : called name (first :: rest) = [] :=
        List.filter_eq_nil_iff.mpr fun file hfile => by simpa using hnone file hfile
      have hall : (first :: rest).filter (fun file => ¬file.1 = name) = first :: rest :=
        List.filter_eq_self.mpr fun file hfile => by simpa using hnone file hfile
      rw [hcalled, hall, List.nil_append]

/-- Leaving out the files of one name keeps those of every other name. -/
theorem called_filter_ne {other : String} (hne : other ≠ name) :
    called other (files.filter fun file => ¬file.1 = name) = called other files := by
  rw [called, List.filter_filter, called]
  refine List.filter_congr fun file _ => ?_
  by_cases hsame : file.1 = other <;> simp [hsame, hne]

/-- Files in the order of their names stand name by name. -/
theorem Ordered.eq_flatMap_called {names : List String} (h : Ordered files)
    (hnames : names.Pairwise (· < ·)) (hmem : ∀ file ∈ files, file.1 ∈ names) :
    files = names.flatMap fun name => called name files := by
  induction names generalizing files with
  | nil =>
    cases files with
    | nil => rfl
    | cons first _ => exact absurd (hmem first List.mem_cons_self) List.not_mem_nil
  | cons name rest ih =>
    obtain ⟨hname, hrest⟩ := List.pairwise_cons.mp hnames
    have hleast : ∀ file ∈ files, name ≤ file.1 := fun file hfile => by
      rcases List.mem_cons.mp (hmem file hfile) with hsame | hbehind
      · exact hsame ▸ String.le_refl _
      · exact Std.le_of_lt (hname _ hbehind)
    have hmemRest : ∀ file ∈ files.filter fun file => ¬file.1 = name, file.1 ∈ rest := by
      intro file hfile
      obtain ⟨hfile, hne⟩ := List.mem_filter.mp hfile
      exact (List.mem_cons.mp (hmem file hfile)).resolve_left (of_decide_eq_true hne)
    have hothers := ih (h.filter fun file => ¬file.1 = name) hrest hmemRest
    rw [List.flatMap_congr fun other hother =>
      called_filter_ne fun hsame => String.ne_of_lt (hname other hother) hsame.symm] at hothers
    rw [List.flatMap_cons, ← hothers]
    exact h.eq_called_append hleast

/-- The names of files, each once and in ascending order. -/
theorem exists_names (files : List (String × List UInt8)) : ∃ names : List String,
    names.Pairwise (· < ·) ∧ ∀ file ∈ files, file.1 ∈ names := by
  refine ⟨((byName files).map Prod.fst).dedup, ?_, fun file hfile => ?_⟩
  · have hsorted : ((byName files).map Prod.fst).Pairwise (· ≤ ·) :=
      List.pairwise_map.mpr (byName_ordered files)
    refine ((hsorted.sublist (List.dedup_sublist _)).and (List.nodup_dedup _)).imp ?_
    rintro a b ⟨hle, hne⟩
    exact Std.lt_of_le_of_ne hle hne
  · exact List.mem_dedup.mpr (List.mem_map_of_mem ((byName_perm files).mem_iff.mpr hfile))

/-! ### The octets of the files -/

/-- The octets are those of the files under each name. -/
theorem flatMap_portion_byName {names : List String} (hnames : names.Pairwise (· < ·))
    (hmem : ∀ file ∈ files, file.1 ∈ names) :
    (byName files).flatMap portion = names.flatMap fun name => joined name files := by
  rw [(byName_ordered files).eq_flatMap_called hnames fun file hfile =>
    hmem file ((byName_perm files).mem_iff.mp hfile), List.flatMap_assoc]
  exact List.flatMap_congr fun name _ => by rw [called_byName, joined]

/-- Parts that are joined to the same list are the same if their lengths are. -/
theorem eq_of_flatMap_eq {α β : Type} {f g : α → List β} {l : List α}
    (hlength : ∀ a ∈ l, (f a).length = (g a).length) (h : l.flatMap f = l.flatMap g) :
    ∀ a ∈ l, f a = g a := by
  induction l with
  | nil => exact List.forall_mem_nil _
  | cons a rest ih =>
    obtain ⟨ha, hrest⟩ := List.forall_mem_cons.mp hlength
    rw [List.flatMap_cons, List.flatMap_cons] at h
    obtain ⟨hsame, hothers⟩ := List.append_inj h ha
    exact List.forall_mem_cons.mpr ⟨hsame, ih hrest hothers⟩

/-- Listed in two orders, files are fingerprinted alike exactly if those of each name give the same
octets in both. -/
theorem fingerprintInput_eq_iff_of_perm (hperm : files.Perm others) :
    fingerprintInput files = fingerprintInput others ↔
      ∀ name, joined name files = joined name others := by
  obtain ⟨names, hnames, hmem⟩ := exists_names files
  have hmemOthers : ∀ file ∈ others, file.1 ∈ names := fun file hfile =>
    hmem file (hperm.mem_iff.mpr hfile)
  rw [fingerprintInput_eq_iff, flatMap_portion_byName hnames hmem,
    flatMap_portion_byName hnames hmemOthers]
  constructor
  · intro hsame name
    by_cases hname : name ∈ names
    · refine eq_of_flatMap_eq (fun name _ => ?_) hsame name hname
      exact ((hperm.filter _).flatMap_right portion).length_eq
    · have hnone {list : List (String × List UInt8)} (hlist : ∀ file ∈ list, file.1 ∈ names) :
          called name list = [] := List.filter_eq_nil_iff.mpr fun file hfile hcalled =>
        hname (of_decide_eq_true hcalled ▸ hlist file hfile)
      rw [joined, joined, hnone hmem, hnone hmemOthers]
  · exact fun hsame => List.flatMap_congr fun name _ => hsame name

/-- Octets are cut into files in one way only where the borders are known. -/
theorem eq_of_flatMap_portion_eq
    (houtline : files.map (fun file => (file.1, file.2.length)) =
      others.map fun file => (file.1, file.2.length))
    (h : files.flatMap portion = others.flatMap portion) : files = others := by
  induction files generalizing others with
  | nil => exact (List.map_eq_nil_iff.mp houtline.symm).symm
  | cons file rest ih =>
    cases others with
    | nil => cases houtline
    | cons other more =>
      rw [List.map_cons, List.map_cons, List.cons.injEq, Prod.mk.injEq] at houtline
      obtain ⟨⟨hname, hlength⟩, hrest⟩ := houtline
      rw [List.flatMap_cons, List.flatMap_cons, portion, portion, hname, List.append_assoc,
        List.append_assoc, List.append_right_inj] at h
      obtain ⟨hcontent, hmore⟩ := List.append_inj h hlength
      rw [Prod.ext hname hcontent, ih hrest hmore]

/-- With the borders, the octets tell which files they come from. -/
theorem byName_eq_of_outline (houtline : outline files = outline others)
    (h : fingerprintInput files = fingerprintInput others) : byName files = byName others :=
  eq_of_flatMap_portion_eq houtline (fingerprintInput_eq_iff.mp h)

/-- Files that are the same once they are sorted are the same up to their order. -/
theorem perm_of_byName_eq (h : byName files = byName others) : files.Perm others :=
  (byName_perm files).symm.trans (h ▸ byName_perm others)

/-- Files with different names are brought into one order by their names, however they are
listed. -/
theorem byName_eq_of_perm (hnames : (files.map Prod.fst).Nodup) (hperm : files.Perm others) :
    byName files = byName others := by
  refine List.Perm.eq_of_pairwise (fun a b ha hb hab hba => ?_) (byName_ordered files)
    (byName_ordered others) ((byName_perm files).trans (hperm.trans (byName_perm others).symm))
  exact List.inj_on_of_nodup_map hnames ((byName_perm files).mem_iff.mp ha)
    (hperm.mem_iff.mpr ((byName_perm others).mem_iff.mp hb)) (String.le_antisymm hab hba)

/-! ### What is identified -/

/-- Having the same octets is the same as being two orders of one list exactly under two conditions:
lists with the same octets can be ordered so that they have the same borders, and in two orders of
one list the files of each name give the same octets. Where the names are different, the octets and
the borders tell the files. -/
theorem fingerprintInput_eq_iff_perm (files others : List (String × List UInt8)) :
    ((fingerprintInput files = fingerprintInput others ↔ files.Perm others) ↔
      (fingerprintInput files = fingerprintInput others →
        ∃ order, order.Perm others ∧ fingerprintInput order = fingerprintInput files ∧
          outline order = outline files) ∧
      (files.Perm others → ∀ name, joined name files = joined name others)) ∧
    ((files.map Prod.fst).Nodup →
      (files.Perm others ↔
        fingerprintInput files = fingerprintInput others ∧ outline files = outline others)) := by
  refine ⟨⟨fun h => ⟨fun hsame => ⟨files, h.mp hsame, rfl, rfl⟩,
      fun hperm => (fingerprintInput_eq_iff_of_perm hperm).mp (h.mpr hperm)⟩,
    fun ⟨hborders, horder⟩ => ⟨fun hsame => ?_,
      fun hperm => (fingerprintInput_eq_iff_of_perm hperm).mpr (horder hperm)⟩⟩,
    fun hnames => ⟨fun hperm => ?_, fun ⟨hsame, houtline⟩ =>
      perm_of_byName_eq (byName_eq_of_outline houtline hsame)⟩⟩
  · obtain ⟨order, hperm, hinput, houtline⟩ := hborders hsame
    exact (perm_of_byName_eq (byName_eq_of_outline houtline hinput)).symm.trans hperm
  · have hsame := byName_eq_of_perm hnames hperm
    rw [fingerprintInput_eq_iff, outline, outline, hsame]
    exact ⟨rfl, rfl⟩

/-- Two files of different names, listed in either order. -/
theorem fingerprintInput_eq_iff_perm_pair :
    (([("if", [1, 2]), ("tcp", [3])] : List (String × List UInt8)).map Prod.fst).Nodup ∧
      fingerprintInput [("if", [1, 2]), ("tcp", [3])] =
        fingerprintInput [("tcp", [3]), ("if", [1, 2])] :=
  ⟨by decide, (((fingerprintInput_eq_iff_perm _ _).2 (by decide)).mp (List.Perm.swap _ _ [])).1⟩

/-- The octets of a file may be those of another name and content, and two files of one name may
give other octets in the other order. -/
theorem fingerprintInput_ambiguous :
    (fingerprintInput [("ab", [])] = fingerprintInput [("a", Text.octets "b")] ∧
      ¬[("ab", [])].Perm [("a", Text.octets "b")]) ∧
    [("a", [1]), ("a", [2])].Perm [("a", [2]), ("a", ([1] : List UInt8))] ∧
      fingerprintInput [("a", [1]), ("a", [2])] ≠ fingerprintInput [("a", [2]), ("a", [1])] := by
  have hjoined (first second : UInt8) : joined "a" [("a", [first]), ("a", [second])] =
      Text.octets "a" ++ first :: (Text.octets "a" ++ [second]) := by
    simp [joined, called, portion]
  refine ⟨⟨?_, fun hperm => ?_⟩, List.Perm.swap _ _ [], fun hsame => ?_⟩
  · have hsplit : Text.octets "ab" = Text.octets "a" ++ Text.octets "b" :=
      Text.octets_append "a" "b"
    simp [fingerprintInput, hsplit]
  · have hname : ("ab", []) ∈ [("a", Text.octets "b")] := hperm.mem_iff.mp List.mem_cons_self
    simp at hname
  · have hexchanged := (fingerprintInput_eq_iff_of_perm (List.Perm.swap _ _ [])).mp hsame "a"
    rw [hjoined, hjoined, List.append_right_inj] at hexchanged
    cases hexchanged

end Smi.Cache
