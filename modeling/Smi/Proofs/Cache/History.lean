import Smi.Loader
import Smi.Proofs.Cache.RoundTrip
import Smi.Proofs.FileSystem
import Smi.Proofs.Text.Utf8

/-!
# Compiling by way of a cache

Over any history of writing and compiling files, a cache file that nothing else writes holds the
modules of files that some earlier call has read. A call takes them if the names and contents of
these files, joined in the order of the names, are the octets that it gets from its own files. So
the cache is transparent exactly as long as files with the same octets have the same modules, which
fails where files are given in another order or where text moves from one file to another.
-/

namespace Smi.Loader

/-- A step in the history of a file system with a cache. -/
inductive FileStep where
  /-- Write a file. A file that cannot be written is left as it is. -/
  | write (path : String) (content : List UInt8)
  /-- Compile the files at some paths by way of the cache. -/
  | compile (paths : List String)
  deriving DecidableEq, Repr

/-- The files at some paths. -/
def filesAt (fs : FileSystem) (paths : List String) : Except LoadError (List SourceFile) :=
  paths.mapM (SourceFile.read fs)

namespace FileStep

/-- The file system after a step. -/
def run (cache : String) (fs : FileSystem) : FileStep → FileSystem
  | .write path content =>
    match fs.write path content with
    | .ok later => later
    | .error _ => fs
  | .compile paths => (compileCached fs paths cache).2

/-- The files that a step compiles, if all of them can be read. -/
def compiled? (fs : FileSystem) : FileStep → Option (List SourceFile)
  | .write _ _ => none
  | .compile paths => (filesAt fs paths).toOption

end FileStep

/-- The file system after a history. -/
def runHistory (cache : String) (fs : FileSystem) (steps : List FileStep) : FileSystem :=
  steps.foldl (FileStep.run cache) fs

/-- The lists of files that the calls of a history compile. -/
def compiledIn (cache : String) : FileSystem → List FileStep → List (List SourceFile)
  | _, [] => []
  | fs, step :: rest => (step.compiled? fs).toList ++ compiledIn cache (step.run cache fs) rest

/-- The octets by which a cache tells files apart: their names and contents, joined in the order of
the names. -/
def octetsOf (files : List SourceFile) : List UInt8 :=
  Cache.fingerprintInput (files.map fun file => (file.unit, file.content))

/-- Whether the cache file holds the modules of some files, and their fingerprint. -/
def CachedFor (fs : FileSystem) (cache : String) (files : List SourceFile) : Prop :=
  fs.read cache = .ok (Cache.write (modulesOf files) (some (fingerprint files)))

variable {fs later : FileSystem} {cache : String} {paths : List String}
  {files old : List SourceFile} {lists : List (List SourceFile)} {steps : List FileStep}

/-- Files with the same sorted octets have the same fingerprint. -/
theorem fingerprint_eq_of_octetsOf (h : octetsOf old = octetsOf files) :
    fingerprint old = fingerprint files :=
  congrArg Digest.ofMessage h

/-- Where the content of one file ends and the name of the next begins cannot be seen. -/
theorem octetsOf_pair {first second : SourceFile} (h : first.unit ≤ second.unit) :
    octetsOf [first, second] = Cache.littleEndian Cache.version ++
      (Text.octets first.unit ++ first.content ++ (Text.octets second.unit ++ second.content)) := by
  rw [octetsOf, Cache.fingerprintInput, List.mergeSort_of_pairwise (by simpa using h)]
  simp

/-! ### One call -/

/-- A cache tells the fingerprint with which it was written. -/
theorem fingerprintOf_write (set : ModuleSet) (f : Option Fingerprint) :
    Cache.fingerprintOf (Cache.write set f) = .ok f := by
  rw [Cache.fingerprintOf, Cache.write, Cache.splitHeader_writeHeader]
  rfl

/-- A cache is read back where its own fingerprint is expected. -/
theorem read_write_expected {set : ModuleSet} (hset : set.Fits) (f : Fingerprint) :
    Cache.read (Cache.write set (some f)) (some f) = .ok set := by
  have hpayload : Codec.moduleSet.read (Codec.moduleSet.write set) = .ok (set, []) := by
    have hread := Codec.readsBack_moduleSet hset []
    rwa [List.append_nil] at hread
  rw [Cache.read, Cache.write, Cache.splitHeader_writeHeader]
  simp [bind, Except.bind, hpayload, pure, Except.pure]

/-- A cache is taken for files with the fingerprint with which it was written. -/
theorem CachedFor.cached?_eq (h : CachedFor fs cache old) (hfits : (modulesOf old).Fits) :
    cached? fs cache (fingerprint files) =
      if fingerprint old = fingerprint files then some (modulesOf old) else none := by
  have hread : fs.read cache =
      .ok (Cache.write (modulesOf old) (some (fingerprint old))) := h
  have hvalid : isCacheValid fs cache (fingerprint files) =
      decide (fingerprint old = fingerprint files) := by
    simp only [isCacheValid, hread, fingerprintOf_write, Option.some.injEq]
  unfold cached?
  by_cases hsame : fingerprint old = fingerprint files
  · have hload : loadCache fs cache (some (fingerprint old)) = .ok (modulesOf old) :=
      bind_eq_ok_iff.mpr ⟨_, mapError_eq_ok_iff.mpr hread, read_write_expected hfits _⟩
    rw [hvalid, ← hsame, hload, decide_eq_true rfl, if_pos rfl, if_pos rfl]
    rfl
  · rw [hvalid, decide_eq_false hsame, if_neg Bool.false_ne_true, if_neg hsame]

/-- Where the cache cannot be read nothing is cached. -/
theorem cached?_of_unreadable (h : ∀ bytes, fs.read cache ≠ .ok bytes) (f : Fingerprint) :
    cached? fs cache f = none := by
  have hinvalid : isCacheValid fs cache f = false := by
    unfold isCacheValid
    split
    next bytes hbytes => exact absurd hbytes (h bytes)
    next => rfl
  rw [cached?, hinvalid, if_neg Bool.false_ne_true]

/-- A call returns the modules in the cache if it takes them, and compiles its files otherwise. -/
theorem compileCached_fst (hfiles : filesAt fs paths = .ok files) :
    (compileCached fs paths cache).1 =
      .ok ((cached? fs cache (fingerprint files)).getD (modulesOf files)) := by
  rw [filesAt] at hfiles
  unfold compileCached
  rw [hfiles]
  dsimp only
  split
  next set hset => rw [hset]; rfl
  next hnone =>
    rw [hnone]
    split <;> rfl

/-- A call that does not take the cache writes it anew. -/
theorem compileCached_of_none (hfiles : filesAt fs paths = .ok files)
    (hnone : cached? fs cache (fingerprint files) = none)
    (hwrite : fs.write cache (Cache.write (modulesOf files) (some (fingerprint files))) =
      .ok later) : compileCached fs paths cache = (.ok (modulesOf files), later) := by
  have hsave : saveCache fs cache (modulesOf files) (some (fingerprint files)) = .ok later :=
    mapError_eq_ok_iff.mpr hwrite
  rw [filesAt] at hfiles
  unfold compileCached
  rw [hfiles]
  dsimp only
  rw [hnone]
  dsimp only
  rw [hsave]

/-- Files that are found are compiled without any cache. -/
theorem compile_eq (hfiles : filesAt fs paths = .ok files) :
    compile fs paths = .ok (modulesOf files) := by
  rw [filesAt] at hfiles
  rw [compile, hfiles]
  rfl

/-- A call leaves the file system as it is, or writes the modules of its files to the cache. -/
theorem compileCached_snd (fs : FileSystem) (paths : List String) (cache : String) :
    (compileCached fs paths cache).2 = fs ∨ ∃ files, filesAt fs paths = .ok files ∧
      fs.write cache (Cache.write (modulesOf files) (some (fingerprint files))) =
        .ok (compileCached fs paths cache).2 := by
  unfold compileCached filesAt
  split
  next => exact .inl rfl
  next files hfiles =>
    split
    next => exact .inl rfl
    next =>
      dsimp only
      split
      next later hsave => exact .inr ⟨files, hfiles, mapError_eq_ok_iff.mp hsave⟩
      next => exact .inl rfl

/-! ### Histories -/

/-- Whether the cache file, if there is one, holds the modules of one of some lists of files. -/
def Keeps (fs : FileSystem) (cache : String) (lists : List (List SourceFile)) : Prop :=
  (∃ bytes, fs.read cache = .ok bytes) → ∃ old ∈ lists, CachedFor fs cache old

/-- Whether a step writes no file to the place of the cache. -/
def FileStep.Spares (fs : FileSystem) (cache : String) : FileStep → Prop
  | .write path _ => ∀ place, fs.locate path = .ok place → fs.locate cache ≠ .ok place
  | .compile _ => True

/-- Writing a file at another place than the cache leaves the cache alone. -/
theorem FileStep.spares_write {path : String} {place other : Place} {content : List UInt8}
    (hpath : fs.locate path = .ok place) (hcache : fs.locate cache = .ok other)
    (hne : place ≠ other) : (FileStep.write path content).Spares fs cache := by
  intro target htarget hsame
  rw [hpath] at htarget
  rw [hcache] at hsame
  exact hne ((Except.ok.inj htarget).trans (Except.ok.inj hsame).symm)

/-- Paths lead where they led before a step. -/
theorem locate_run {step : FileStep} {path : String} {place : Place} :
    (step.run cache fs).locate path = .ok place ↔ fs.locate path = .ok place := by
  cases step with
  | write written content =>
    unfold FileStep.run
    dsimp only
    split
    next later hwrite => exact FileSystem.locate_write hwrite
    next => exact Iff.rfl
  | compile paths =>
    rcases compileCached_snd fs paths cache with hsame | ⟨files, _, hwrite⟩
    · rw [FileStep.run, hsame]
    · exact FileSystem.locate_write hwrite

/-- A step that spares a cache does so after any other step. -/
theorem FileStep.Spares.run {step other : FileStep} (h : step.Spares fs cache) :
    step.Spares (other.run cache fs) cache := by
  cases step with
  | write path content =>
    intro place hplace hcache
    exact h place (locate_run.mp hplace) (locate_run.mp hcache)
  | compile paths => trivial

/-- A cache that is read as before keeps what it held, also among more lists of files. -/
theorem Keeps.of_read (h : Keeps fs cache lists) {more : List (List SourceFile)}
    (hsame : ∀ bytes, later.read cache = .ok bytes ↔ fs.read cache = .ok bytes)
    (hmore : ∀ old ∈ lists, old ∈ more) : Keeps later cache more := by
  rintro ⟨bytes, hbytes⟩
  obtain ⟨old, hold, hcached⟩ := h ⟨bytes, (hsame bytes).mp hbytes⟩
  exact ⟨old, hmore old hold, (hsame _).mpr hcached⟩

/-- A step that spares the cache leaves in it the modules of files that have been compiled. -/
theorem Keeps.run (h : Keeps fs cache lists) {step : FileStep} (hspares : step.Spares fs cache) :
    Keeps (step.run cache fs) cache (lists ++ (step.compiled? fs).toList) := by
  have hmore : ∀ old ∈ lists, old ∈ lists ++ (step.compiled? fs).toList :=
    fun old hold => List.mem_append_left _ hold
  cases step with
  | write path content =>
    unfold FileStep.run
    dsimp only
    split
    next later hwrite =>
      exact h.of_read (fun bytes => FileSystem.read_of_write_ne hwrite hspares) hmore
    next => exact h.of_read (fun _ => Iff.rfl) hmore
  | compile paths =>
    rcases compileCached_snd fs paths cache with hsame | ⟨files, hfiles, hwrite⟩
    · refine h.of_read (fun bytes => ?_) hmore
      rw [FileStep.run, hsame]
    · refine fun _ => ⟨files, List.mem_append_right _ ?_, FileSystem.read_of_write hwrite⟩
      rw [FileStep.compiled?, hfiles]
      exact List.mem_singleton_self files

/-- Over a history that spares the cache, the cache holds the modules of files that some call of
the history has compiled. -/
theorem Keeps.runHistory (h : Keeps fs cache lists)
    (hspares : ∀ step ∈ steps, step.Spares fs cache) :
    Keeps (runHistory cache fs steps) cache (lists ++ compiledIn cache fs steps) := by
  induction steps generalizing fs lists with
  | nil => rwa [compiledIn, List.append_nil]
  | cons step rest ih =>
    obtain ⟨hstep, hrest⟩ := List.forall_mem_cons.mp hspares
    have hlater := ih (h.run hstep) fun other hother => (hrest other hother).run
    rwa [List.append_assoc] at hlater

/-! ### A module moved from file to file -/

/-- The octets of a module between the end of one file and the name of the next. -/
def movedModule : List UInt8 :=
  Text.octets "\nX DEFINITIONS\n"

/-- Two files, the second of which holds a module and the letter that is its name. -/
def splitFiles : FileSystem :=
  ⟨[], [(["a.mib"], []), (["b.mib"], movedModule ++ Text.octets "b")], []⟩

/-- What is read from the two files. -/
def splitSources : List SourceFile :=
  [⟨"a", []⟩, ⟨"b", movedModule ++ Text.octets "b"⟩]

/-- The two files are read. -/
theorem filesAt_splitFiles : filesAt splitFiles ["a.mib", "b.mib"] = .ok splitSources :=
  rfl

/-- The two files are compiled to an empty module and the one that the second file holds. -/
theorem modulesOf_splitSources : modulesOf splitSources =
    ⟨[⟨"a", .ofList [], [], .ofList []⟩, ⟨"X", .ofList [], [], .ofList []⟩]⟩ := by
  have hempty : Text.ofOctetsLossy [] = "" := Text.ofOctetsLossy_octets ""
  have htext : Text.ofOctetsLossy (movedModule ++ Text.octets "b") = "\nX DEFINITIONS\nb" := by
    rw [movedModule, ← Text.octets_append, Text.ofOctetsLossy_octets]
    rfl
  have hqueue : queue splitSources = .ofSources [("a", ""), ("b", "\nX DEFINITIONS\nb")] := by
    simp [queue, splitSources, SourceFile.text, htext, hempty]
  rw [modulesOf, hqueue]
  decide

/-- The modules of the two files can be written. -/
theorem fits_splitSources : (modulesOf splitSources).Fits := by
  rw [modulesOf_splitSources]
  refine ⟨by decide, ?_⟩
  rintro m (_ | ⟨_, _ | ⟨_, ⟨⟩⟩⟩)
  · exact ⟨by decide, by decide, ⟨by decide, by simp⟩, by decide⟩
  · exact ⟨by decide, by decide, ⟨by decide, by simp⟩, by decide⟩

/-- The cache has a place beside the two files. -/
theorem locate_cache : splitFiles.locate "cache" = .ok ["cache"] :=
  rfl

/-- There is no cache beside the two files at first. -/
theorem splitFiles_unreadable (bytes : List UInt8) : splitFiles.read "cache" ≠ .ok bytes := by
  have hread : splitFiles.read "cache" = .error .notFound := rfl
  rw [hread]
  nofun

/-- The first call on the two files writes their modules to the cache. -/
theorem compileCached_splitFiles : compileCached splitFiles ["a.mib", "b.mib"] "cache" =
    (.ok (modulesOf splitSources), splitFiles.put ["cache"]
      (Cache.write (modulesOf splitSources) (some (fingerprint splitSources)))) := by
  have hwrite (bytes : List UInt8) :
      splitFiles.write "cache" bytes = .ok (splitFiles.put ["cache"] bytes) := rfl
  exact compileCached_of_none filesAt_splitFiles (cached?_of_unreadable splitFiles_unreadable _)
    (hwrite _)

/-- The history of one call on the two files, after which a third file is written. -/
def addingSteps : List FileStep :=
  [.compile ["a.mib", "b.mib"], .write "c.mib" movedModule]

/-- The history of one call on the two files, after which the module is moved to the first file. -/
def movingSteps : List FileStep :=
  [.compile ["a.mib", "b.mib"], .write "a.mib" (Text.octets "b" ++ movedModule), .write "b.mib" []]

/-- What is read from the two files after that. -/
def joinedSources : List SourceFile :=
  [⟨"a", Text.octets "b" ++ movedModule⟩, ⟨"b", []⟩]

/-- Moving the module from one file to the other does not change the octets. -/
theorem octetsOf_joinedSources : octetsOf splitSources = octetsOf joinedSources := by
  rw [splitSources, joinedSources, octetsOf_pair (by decide), octetsOf_pair (by decide)]
  simp only [List.append_assoc, List.append_nil]

/-- With the module moved, it is the first file that is compiled to it. -/
theorem modulesOf_joinedSources : modulesOf joinedSources =
    ⟨[⟨"X", .ofList [], [], .ofList []⟩, ⟨"b", .ofList [], [], .ofList []⟩]⟩ := by
  have hempty : Text.ofOctetsLossy [] = "" := Text.ofOctetsLossy_octets ""
  have htext : Text.ofOctetsLossy (Text.octets "b" ++ movedModule) = "b\nX DEFINITIONS\n" := by
    rw [movedModule, ← Text.octets_append, Text.ofOctetsLossy_octets]
    rfl
  have hqueue : queue joinedSources = .ofSources [("a", "b\nX DEFINITIONS\n"), ("b", "")] := by
    simp [queue, joinedSources, SourceFile.text, htext, hempty]
  rw [modulesOf, hqueue]
  decide

/-- The file system after the history, where the cache is the one that the call has written. -/
theorem runHistory_movingSteps : runHistory "cache" splitFiles movingSteps =
    ⟨[], [(["b.mib"], []), (["a.mib"], Text.octets "b" ++ movedModule), (["cache"],
      Cache.write (modulesOf splitSources) (some (fingerprint splitSources)))], []⟩ := by
  rw [runHistory, movingSteps, List.foldl_cons, FileStep.run, compileCached_splitFiles]
  generalize Cache.write (modulesOf splitSources) (some (fingerprint splitSources)) = bytes
  rfl

/-! ### Transparency -/

/-- After any history of writing and compiling files that spares a cache, which did not exist
before, a call by way of the cache returns the modules of its own files exactly if files with the
same octets, for whose modules the cache was written, have the same modules. -/
theorem compileCached_eq_compile_iff (hstart : ∀ bytes, fs.read cache ≠ .ok bytes)
    (hspares : ∀ step ∈ steps, step.Spares fs cache)
    (hfits : ∀ old ∈ compiledIn cache fs steps, (modulesOf old).Fits)
    (hfiles : filesAt (runHistory cache fs steps) paths = .ok files)
    (hcollision : ∀ old ∈ compiledIn cache fs steps,
      fingerprint old = fingerprint files → octetsOf old = octetsOf files) :
    (compileCached (runHistory cache fs steps) paths cache).1 =
        compile (runHistory cache fs steps) paths ↔
      ∀ old ∈ compiledIn cache fs steps, CachedFor (runHistory cache fs steps) cache old →
        octetsOf old = octetsOf files → modulesOf old = modulesOf files := by
  have hempty : Keeps fs cache [] := fun ⟨bytes, hbytes⟩ => absurd hbytes (hstart bytes)
  have hkeeps := hempty.runHistory hspares
  rw [compileCached_fst hfiles, compile_eq hfiles, Except.ok.injEq]
  constructor
  · intro hsame old hold hcached hoctets
    rw [hcached.cached?_eq (hfits old hold), if_pos (fingerprint_eq_of_octetsOf hoctets)] at hsame
    exact hsame
  · intro hsame
    by_cases hreadable : ∃ bytes, (runHistory cache fs steps).read cache = .ok bytes
    · obtain ⟨old, hold, hcached⟩ := hkeeps hreadable
      rw [hcached.cached?_eq (hfits old hold)]
      split
      next hfingerprint =>
        exact hsame old hold hcached (hcollision old hold hfingerprint)
      next => rfl
    · rw [cached?_of_unreadable fun bytes hbytes => hreadable ⟨bytes, hbytes⟩]
      rfl

/-- A call on files that have not changed since an earlier call, after another file has been
written. -/
theorem compileCached_eq_compile_splitFiles :
    (compileCached (runHistory "cache" splitFiles addingSteps) ["a.mib", "b.mib"] "cache").1 =
      compile (runHistory "cache" splitFiles addingSteps) ["a.mib", "b.mib"] := by
  have hcompiled : compiledIn "cache" splitFiles addingSteps = [splitSources] := rfl
  have hfiles : filesAt (runHistory "cache" splitFiles addingSteps) ["a.mib", "b.mib"] =
      .ok splitSources := by
    rw [runHistory, addingSteps, List.foldl_cons, FileStep.run, compileCached_splitFiles]
    generalize Cache.write (modulesOf splitSources) (some (fingerprint splitSources)) = bytes
    rfl
  have hspares : ∀ step ∈ addingSteps, step.Spares splitFiles "cache" := by
    rintro step (_ | ⟨_, _ | ⟨_, ⟨⟩⟩⟩)
    · trivial
    · have hwritten : splitFiles.locate "c.mib" = .ok ["c.mib"] := rfl
      exact FileStep.spares_write hwritten locate_cache (by decide)
  refine (compileCached_eq_compile_iff splitFiles_unreadable hspares ?_ hfiles ?_).mpr ?_
  · rw [hcompiled]
    exact List.forall_mem_singleton.mpr fits_splitSources
  · rw [hcompiled]
    exact List.forall_mem_singleton.mpr fun _ => rfl
  · rw [hcompiled]
    exact List.forall_mem_singleton.mpr fun _ _ => rfl

/-- After a module has been moved from one file to the other, a call returns what is no longer
so. -/
theorem compileCached_ne_compile_movingSteps :
    (∀ bytes, splitFiles.read "cache" ≠ .ok bytes) ∧
      (∀ step ∈ movingSteps, step.Spares splitFiles "cache") ∧
      filesAt (runHistory "cache" splitFiles movingSteps) ["a.mib", "b.mib"] = .ok joinedSources ∧
      (compileCached (runHistory "cache" splitFiles movingSteps) ["a.mib", "b.mib"] "cache").1 ≠
        compile (runHistory "cache" splitFiles movingSteps) ["a.mib", "b.mib"] := by
  have hfiles : filesAt (runHistory "cache" splitFiles movingSteps) ["a.mib", "b.mib"] =
      .ok joinedSources := by
    rw [runHistory_movingSteps]
    rfl
  have hcached : CachedFor (runHistory "cache" splitFiles movingSteps) "cache" splitSources := by
    rw [CachedFor, runHistory_movingSteps]
    rfl
  refine ⟨splitFiles_unreadable, ?_, hfiles, ?_⟩
  · rintro step (_ | ⟨_, _ | ⟨_, _ | ⟨_, ⟨⟩⟩⟩⟩)
    · trivial
    · have hwritten : splitFiles.locate "a.mib" = .ok ["a.mib"] := rfl
      exact FileStep.spares_write hwritten locate_cache (by decide)
    · have hwritten : splitFiles.locate "b.mib" = .ok ["b.mib"] := rfl
      exact FileStep.spares_write hwritten locate_cache (by decide)
  · rw [compileCached_fst hfiles, compile_eq hfiles, hcached.cached?_eq fits_splitSources,
      if_pos (fingerprint_eq_of_octetsOf octetsOf_joinedSources), Option.getD_some,
      modulesOf_splitSources, modulesOf_joinedSources]
    exact fun hsame => absurd (Except.ok.inj hsame) (by decide)

end Smi.Loader
