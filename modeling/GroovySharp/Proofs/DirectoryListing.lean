import GroovySharp.Discovery
import Mathlib.Data.List.Nodup

/-!
# Files in the order of a listing

The walk with waiting directories finds the files that a recursive listing has, in its order, and each
file that is found or noted is looked at once.
-/

namespace GroovySharp.Disk

open List

/-! ### Listings -/

def byName {α : Type} (xs : List (String × α)) : List (String × α) :=
  xs.mergeSort fun a b => decide (a.1 ≤ b.1)

def regular (es : Entries) : List (String × Bytes) :=
  es.filterMap fun
    | (name, .file content) => some (name, content)
    | _ => none

def isTree : Entry → Bool
  | .directory _ => true
  | _ => false

mutual

/-- The files below an entry: those of a directory by name, then those of the directories in it, which are
taken by name and listed alike. Links are passed over. -/
def listing (names : List String) : Entry → List Step
  | .directory es =>
    (byName (regular es)).map (fun f => (names ++ [f.1], f.2)) ++ (byName (listings names es)).flatMap (·.2)
  | _ => []

def listings (names : List String) : Entries → List (String × List Step)
  | [] => []
  | (name, e) :: rest =>
    if isTree e then (name, listing (names ++ [name]) e) :: listings names rest else listings names rest

end

mutual

/-- No directory has two entries of one name. -/
def distinct : Entry → Bool
  | .directory es => decide (es.map (·.1)).Nodup && allDistinct es
  | _ => true

def allDistinct : Entries → Bool
  | [] => true
  | (_, e) :: rest => distinct e && allDistinct rest

end

variable {es : Entries} {α : Type}

theorem allDistinct_eq_true_iff : allDistinct es = true ↔ ∀ p ∈ es, distinct p.2 = true := by
  induction es with
  | nil => simp [allDistinct]
  | cons p es ih => rw [allDistinct, Bool.and_eq_true, ih, forall_mem_cons]

theorem distinct_directory :
    distinct (.directory es) = true ↔ (es.map (·.1)).Nodup ∧ ∀ p ∈ es, distinct p.2 = true := by
  rw [distinct, Bool.and_eq_true, decide_eq_true_iff, allDistinct_eq_true_iff]

/-! ### Order -/

theorem perm_byName (xs : List (String × α)) : (byName xs).Perm xs := mergeSort_perm ..

theorem pairwise_byName (xs : List (String × α)) : (byName xs).Pairwise (·.1 ≤ ·.1) := by
  refine (pairwise_mergeSort ?_ ?_ xs).imp of_decide_eq_true
  · intro a b c hab hbc
    exact decide_eq_true (String.le_trans (of_decide_eq_true hab) (of_decide_eq_true hbc))
  · intro a b
    simpa using String.le_total a.1 b.1

/-- Sorting by distinct names goes before or after a selection that keeps the names. -/
theorem filterMap_byName {β : Type} {es : List (String × α)} (hd : (es.map (·.1)).Nodup)
    {f : String × α → Option (String × β)} (hf : ∀ p q, f p = some q → q.1 = p.1) :
    (byName es).filterMap f = byName (es.filterMap f) := by
  have hperm := (perm_byName es).filterMap f
  have hsorted : ((byName es).filterMap f).Pairwise (·.1 ≤ ·.1) := by
    refine (pairwise_byName es).filterMap f ?_
    intro a a' hle b hb b' hb'
    rwa [hf a b hb, hf a' b' hb']
  refine List.Perm.eq_of_pairwise ?_ hsorted (pairwise_byName _) (hperm.trans (perm_byName _).symm)
  intro a b ha hb hab hba
  obtain ⟨p, hp, hpa⟩ := mem_filterMap.mp (hperm.subset ha)
  obtain ⟨q, hq, hqb⟩ := mem_filterMap.mp ((perm_byName _).subset hb)
  have hnames : p.1 = q.1 := by
    rw [← hf p a hpa, ← hf q b hqb]
    exact String.le_antisymm hab hba
  obtain rfl := inj_on_of_nodup_map hd hp hq hnames
  exact Option.some.inj (hpa.symm.trans hqb)

/-! ### Walking -/

theorem listings_eq_filterMap (names : List String) (es : Entries) : listings names es =
      es.filterMap fun p => if isTree p.2 then some (p.1, listing (names ++ [p.1]) p.2) else none := by
  induction es with
  | nil => rfl
  | cons p es ih =>
    rw [listings, ih, filterMap_cons]
    split <;> rfl

theorem filesIn_eq_map (names : List String) (es : Entries) :
    filesIn names es = (regular es).map fun f => (names ++ [f.1], f.2) := by
  rw [filesIn, regular, map_filterMap]
  congr 1
  funext p
  rcases p with ⟨name, _ | _ | _⟩ <;> rfl

theorem flatMap_directoriesIn (names : List String) (es : Entries) :
    (directoriesIn names es).flatMap (fun p => listing p.1 p.2) = (listings names es).flatMap (·.2) := by
  induction es with
  | nil => rfl
  | cons p es ih =>
    obtain ⟨name, e⟩ := p
    rw [directoriesIn] at ih ⊢
    cases e <;> simp [listings, isTree, ih]

/-- The entries of a directory come from the last name to the first, which the walk turns round twice. -/
theorem reverse_sortedEntries (hd : (es.map (·.1)).Nodup) : (sortedEntries (.directory es)).reverse = byName es := by
  have hperm : (sortedEntries (.directory es)).Perm es := mergeSort_perm ..
  have hsorted : (sortedEntries (.directory es)).Pairwise fun a b => b.1 ≤ a.1 := by
    refine (pairwise_mergeSort ?_ ?_ es).imp of_decide_eq_true
    · intro a b c hab hbc
      exact decide_eq_true (String.le_trans (of_decide_eq_true hbc) (of_decide_eq_true hab))
    · intro a b
      simpa using String.le_total b.1 a.1
  refine List.Perm.eq_of_pairwise ?_ (pairwise_reverse.mpr hsorted) (pairwise_byName es)
    ((reverse_perm _).trans (hperm.trans (perm_byName es).symm))
  intro a b ha hb hab hba
  exact inj_on_of_nodup_map hd (hperm.subset (mem_reverse.mp ha)) ((perm_byName es).subset hb)
    (String.le_antisymm hab hba)

/-- The listing of a directory as its entries come in order. -/
theorem listing_directory (hd : (es.map (·.1)).Nodup) (names : List String) : listing names (.directory es) =
      filesIn names (byName es) ++ (directoriesIn names (byName es)).flatMap fun p => listing p.1 p.2 := by
  have hfiles : regular (byName es) = byName (regular es) := by
    refine filterMap_byName hd ?_
    rintro ⟨name, _ | _ | _⟩ q hq <;> cases hq
    rfl
  have hlistings : listings names (byName es) = byName (listings names es) := by
    rw [listings_eq_filterMap, listings_eq_filterMap]
    refine filterMap_byName hd fun p q hq => ?_
    split at hq <;> cases hq
    rfl
  rw [listing, flatMap_directoriesIn, filesIn_eq_map, ← hfiles, ← hlistings]

theorem directoryCounts_perm {es' : Entries} (h : es.Perm es') :
    directoryCounts es = directoryCounts es' := by
  induction h with
  | nil => rfl
  | cons p _ ih => rw [directoryCounts, directoryCounts, ih]
  | swap p q es => simp only [directoryCounts]; omega
  | trans _ _ ih ih' => exact ih.trans ih'

def waitingCount (waiting : List (List String × Entry)) : Nat :=
  directoryCounts (waiting.map fun p => ("", p.2))

theorem waitingCount_append (ps qs : List (List String × Entry)) :
    waitingCount (ps ++ qs) = waitingCount ps + waitingCount qs := by
  induction ps with
  | nil => simp [waitingCount, directoryCounts]
  | cons p ps ih =>
    simp only [waitingCount, cons_append, map_cons, directoryCounts] at ih ⊢
    omega

theorem waitingCount_directoriesIn (names : List String) (es : Entries) :
    waitingCount (directoriesIn names es) = directoryCounts es := by
  induction es with
  | nil => rfl
  | cons p es ih =>
    obtain ⟨name, e⟩ := p
    rw [waitingCount, directoriesIn] at ih ⊢
    cases e <;> simp [directoryCounts, directoryCount, ih]

theorem walkFrom_eq_flatMap {n : Nat} {waiting : List (List String × Entry)} (hn : waitingCount waiting ≤ n)
    (hw : ∀ p ∈ waiting, isTree p.2 = true ∧ distinct p.2 = true) :
    walkFrom n waiting = waiting.flatMap fun p => listing p.1 p.2 := by
  induction n generalizing waiting with
  | zero =>
    rcases waiting with _ | ⟨⟨names, e⟩, waiting⟩
    · rfl
    · cases e <;> simp [isTree, waitingCount, directoryCounts, directoryCount] at hw hn
  | succ n ih =>
    rcases waiting with _ | ⟨⟨names, e⟩, waiting⟩
    · rfl
    obtain ⟨⟨htree, hd⟩, hlater⟩ := forall_mem_cons.mp hw
    cases e <;> try cases htree
    next es =>
    obtain ⟨hnodup, hes⟩ := distinct_directory.mp hd
    have hsorted := perm_byName es
    have hstack : (directoriesIn names (sortedEntries (.directory es))).foldl (fun stack p => p :: stack) waiting =
        directoriesIn names (byName es) ++ waiting := by
      rw [foldl_flip_cons_eq_append, map_id', directoriesIn, ← filterMap_reverse, reverse_sortedEntries hnodup,
        directoriesIn]
    rw [walkFrom, hstack, filesIn, ← filterMap_reverse, reverse_sortedEntries hnodup, ← filesIn, flatMap_cons,
      listing_directory hnodup, append_assoc, ← flatMap_append]
    refine congrArg _ (ih ?_ fun p hp => ?_)
    · rw [waitingCount_append, waitingCount_directoriesIn]
      simp only [waitingCount, map_cons, directoryCounts, directoryCount] at hn ⊢
      have hcount : directoryCounts (byName es) = directoryCounts es := directoryCounts_perm hsorted
      omega
    · rcases mem_append.mp hp with hp | hp
      · obtain ⟨⟨name, e⟩, he, hpe⟩ := mem_filterMap.mp hp
        cases e <;> cases hpe
        exact ⟨rfl, hes _ (hsorted.subset he)⟩
      · exact hlater p hp

/-! ### Links -/

theorem seen_name (spot : Spot) : ((allSeenWith (fun _ _ => none) spot es).map (·.1)).Sublist (es.map (·.1)) := by
  induction es with
  | nil => exact .slnil
  | cons p es ih =>
    rw [allSeenWith]
    split
    · exact ih.cons_cons p.1
    · exact ih.cons p.1

mutual

theorem seen_listed (spot : Spot) : (e : Entry) → ∀ e', seenWith (fun _ _ => none) spot e = some e' →
    isTree e' = isTree e ∧ (distinct e = true → distinct e' = true) ∧ ∀ names, listing names e' = listing names e
  | .file _, e', h => by cases h; simp
  | .link _, e', h => by cases h
  | .directory es, e', h => by
    cases h
    obtain ⟨hdistinct, hregular, hlistings⟩ := allSeen_listed spot es
    refine ⟨rfl, fun hd => ?_, fun names => by rw [listing, listing, hregular, hlistings]⟩
    simp only [distinct, Bool.and_eq_true, decide_eq_true_eq] at hd ⊢
    exact ⟨hd.1.sublist (seen_name spot), hdistinct hd.2⟩

theorem allSeen_listed (spot : Spot) : (es : Entries) →
    (allDistinct es = true → allDistinct (allSeenWith (fun _ _ => none) spot es) = true) ∧
      regular (allSeenWith (fun _ _ => none) spot es) = regular es ∧
      ∀ names, listings names (allSeenWith (fun _ _ => none) spot es) = listings names es
  | [] => by simp [allSeenWith]
  | (name, e) :: rest => by
    obtain ⟨hdistinct, hregular, hlistings⟩ := allSeen_listed spot rest
    rw [allSeenWith, allDistinct, Bool.and_eq_true]
    cases hseen : seenWith (fun _ _ => none) (spot ++ [name]) e with
    | none =>
      cases e <;> cases hseen
      exact ⟨fun hd => hdistinct hd.2, hregular, fun names => by simp [listings, isTree, hlistings]⟩
    | some e' =>
      obtain ⟨htree, hd', hlisting⟩ := seen_listed (spot ++ [name]) e e' hseen
      refine ⟨fun hd => by simp [allDistinct, hd' hd.1, hdistinct hd.2], ?_, fun names => ?_⟩
      · cases e <;> cases hseen <;> simpa [regular] using hregular
      · simp only [listings, htree, hlisting, hlistings]

end

/-- The walk of a directory in which links are not followed. -/
theorem walk_view (top : Entry) (spot : Spot) (hd : distinct (.directory es) = true) :
    ∃ e, view top false spot (.directory es) = some e ∧ walk e = listing [] (.directory es) := by
  refine ⟨_, rfl, ?_⟩
  obtain ⟨htree, hdistinct, hlisting⟩ := seen_listed spot (.directory es) _ rfl
  rw [walk, walkFrom_eq_flatMap]
  · simp [hlisting]
  · simp [waitingCount, directoryCounts]
  · simpa using ⟨htree, hdistinct hd⟩

end GroovySharp.Disk

namespace GroovySharp.Discovery

open Disk List

/-! ### Bytes in pieces -/

theorem flatten_pieces (content : Bytes) : (pieces content).flatten = content := by
  have hrange (n : Nat) : ((range n).map fun i => (content.drop (i * pieceSize)).take pieceSize).flatten =
      content.take (n * pieceSize) := by
    induction n with
    | zero => simp
    | succ n ih => simp [range_succ, ih, Nat.succ_mul, take_add]
  rw [pieces, hrange, take_of_length_le]
  have := Nat.lt_mul_div_succ content.length (by decide : 0 < pieceSize)
  rw [Nat.mul_comm] at this
  omega

/-- The start of a file does not depend on how it comes in pieces. -/
theorem headOf_eq_take (limit : Int) (ps : List Bytes) : headOf limit ps = ps.flatten.take limit.toNat := by
  -- Over any start that is already full or all that has been read.
  have hfold (read : Bytes) : ps.foldl (fun head piece => if (head.length : Int) < limit then
      head ++ piece.take (limit - head.length).toNat else head) (read.take limit.toNat) =
      (read ++ ps.flatten).take limit.toNat := by
    induction ps generalizing read with
    | nil => simp
    | cons p ps ih =>
      have hstep : (if ((read.take limit.toNat).length : Int) < limit then read.take limit.toNat ++
          p.take (limit - (read.take limit.toNat).length).toNat else read.take limit.toNat) =
          (read ++ p).take limit.toNat := by
        rw [length_take, take_append]
        split
        · next h => rw [show (limit - (min limit.toNat read.length : Nat)).toNat = limit.toNat - read.length by omega]
        · next h => rw [show limit.toNat - read.length = 0 by omega, take_zero, append_nil]
      rw [foldl_cons, hstep, ih, flatten_cons, append_assoc]
  have hwhole := hfold []
  rwa [take_nil, nil_append] at hwhole

/-! ### Files that are looked at -/

section

variable (cfg : Config)

def pathOf (s : Step) : String := "/".intercalate s.1

def wanted (s : Step) : Bool := cfg.languageOf (pathOf s) != .unknown && cfg.wants (pathOf s)

def fits (s : Step) : Bool := decide ((s.2.length : Int) ≤ cfg.maxFileSize)

def sniffed (s : Step) : Option String := sniff (s.2.take cfg.sniffBytes.toNat)

def found (s : Step) : Bool := wanted cfg s && fits cfg s && (sniffed cfg s).isSome

/-- What is noted about a file: one thing at most. -/
def noted? (s : Step) : Option AnomalyKind :=
  if !wanted cfg s then none
  else if !fits cfg s then some .sizeLimit
  else if sniffed cfg s = none then some .skipped
  else if sniffed cfg s = some "latin-1" then some .encoding
  else none

def fileOf (base : Path) (s : Step) : SourceFile where
  path := pathOf s
  realPath := (base.append { names := s.1 }).text
  digest := SourceFile.digestOf s.2
  size := s.2.length
  language := .groovy
  encoding := sniffed cfg s

theorem examine_eq (base : Path) (s : Step) (sink : Sink) : ∃ notes : List Anomaly,
      (examine cfg (pathOf s) (base.append { names := s.1 }).text s.2 sink).1 =
        (if found cfg s then some (fileOf cfg base s) else none) ∧
      (examine cfg (pathOf s) (base.append { names := s.1 }).text s.2 sink).2.pending = sink.pending ++ notes ∧
      notes.map (fun a => (a.path, a.kind)) = ((noted? cfg s).map (pathOf s, ·)).toList := by
  unfold examine
  by_cases hwanted : wanted cfg s = true
  · have hkept : ¬ (cfg.languageOf (pathOf s) = .unknown ∨ (!cfg.wants (pathOf s)) = true) := by
      simpa [wanted, not_or] using hwanted
    rw [if_neg hkept]
    by_cases hfits : fits cfg s = true
    · have hsize : ¬ cfg.maxFileSize < (s.2.length : Int) := by simpa [fits] using hfits
      dsimp only
      rw [if_neg hsize, headOf_eq_take, flatten_pieces, ← sniffed]
      cases hs : sniffed cfg s with
      | none => exact ⟨[_], by simp [found, hs], rfl, by simp [noted?, hwanted, hfits, hs, note]⟩
      | some encoding =>
        dsimp only
        split
        · next hlatin =>
          exact ⟨[_], by simp [found, hwanted, hfits, hs, fileOf], rfl,
            by simp [noted?, hwanted, hfits, hs, hlatin, note]⟩
        · next hlatin =>
          exact ⟨[], by simp [found, hwanted, hfits, hs, fileOf], (append_nil _).symm,
            by simp [noted?, hwanted, hfits, hs, hlatin]⟩
    · have hsize : cfg.maxFileSize < (s.2.length : Int) := by simpa [fits] using hfits
      exact ⟨[_], by simp [found, hfits, hsize], by simp [hsize]; rfl, by simp [noted?, hwanted, hfits, note]⟩
  · have hpassed : cfg.languageOf (pathOf s) = .unknown ∨ (!cfg.wants (pathOf s)) = true := by
      simpa [wanted, imp_iff_not_or] using hwanted
    rw [if_pos hpassed]
    exact ⟨[], by simp [found, hwanted], (append_nil _).symm, by simp [noted?, hwanted]⟩

theorem examineAll_eq (base : Path) (steps : List Step) (sink : Sink) :
    (examineAll cfg base steps sink).1 = (steps.filter (found cfg)).map (fileOf cfg base) ∧
      ∃ notes : List Anomaly, (examineAll cfg base steps sink).2.pending = sink.pending ++ notes ∧
        notes.map (fun a => (a.path, a.kind)) = steps.filterMap fun s => (noted? cfg s).map (pathOf s, ·) := by
  induction steps generalizing sink with
  | nil => exact ⟨rfl, [], (append_nil _).symm, rfl⟩
  | cons s steps ih =>
    obtain ⟨notes, hfile, hpending, hnotes⟩ := examine_eq cfg base s sink
    have hstep (r) (hr : r = examine cfg (pathOf s) (base.append { names := s.1 }).text s.2 sink) :
        examineAll cfg base (s :: steps) sink =
          (r.1.toList ++ (examineAll cfg base steps r.2).1, (examineAll cfg base steps r.2).2) := by
      rw [hr]
      rfl
    rw [hstep _ rfl]
    obtain ⟨hfiles, more, hmore, hkinds⟩ := ih (examine cfg (pathOf s) _ s.2 sink).2
    refine ⟨?_, notes ++ more, ?_, ?_⟩
    · rw [hfile, hfiles, filter_cons]
      split <;> rfl
    · rw [hmore, hpending, append_assoc]
    · rw [map_append, hnotes, hkinds, filterMap_cons]
      cases noted? cfg s <;> rfl

end

/-- The path leads to a directory with these entries. -/
def LeadsTo (d : Disk) (root : String) (spot : Spot) (es : Entries) : Prop :=
  ∃ names, d.namesOf? (Path.ofText root) = some names ∧ rootSpot d names = .ok spot ∧
    entryAt? d.top spot = some (.directory es)

/-- Where links are not followed, the files below a directory are walked in the order of the listing. Those
that are wanted, small enough and no binaries are found, each other wanted file is noted once, for its
size or as skipped, and so is each file in Latin-1. -/
theorem sources_listed {d : Disk} {root : String} {spot : Spot} {es : Entries} {cfg : Config}
    (hlinks : cfg.followLinks = false) (hroot : LeadsTo d root spot es)
    (hd : distinct (.directory es) = true) (sink : Sink) :
    ∃ e files sink' notes, view d.top cfg.followLinks spot (.directory es) = some e ∧
      walk e = listing [] (.directory es) ∧ sources d root cfg sink = .ok (files, sink') ∧
      files = ((listing [] (.directory es)).filter (found cfg)).map (fileOf cfg (d.fullPath spot)) ∧
      sink'.pending = sink.pending ++ notes ∧ notes.map (fun a => (a.path, a.kind)) =
        (listing [] (.directory es)).filterMap (fun s => (noted? cfg s).map (pathOf s, ·)) ∧ ∀ s, wanted cfg s = true →
        (found cfg s = false ↔ noted? cfg s = some .sizeLimit ∨ noted? cfg s = some .skipped) ∧
        (fits cfg s = true ∧ sniffed cfg s = some "latin-1" ↔ noted? cfg s = some .encoding) := by
  obtain ⟨names, hnames, hspot, hentry⟩ := hroot
  obtain ⟨e, hview, hwalk⟩ := walk_view d.top spot hd
  obtain ⟨hfiles, notes, hpending, hkinds⟩ :=
    examineAll_eq cfg (d.fullPath spot) (listing [] (.directory es)) sink
  rw [hlinks]
  refine ⟨e, _, _, notes, hview, hwalk, ?_, hfiles, hpending, hkinds, fun s hwanted => ?_⟩
  · simp only [sources, hnames, hspot, hentry, hlinks, hview, hwalk]
  · unfold noted? found
    rw [hwanted]
    cases fits cfg s <;> cases sniffed cfg s <;> simp

/-- A file in Latin-1 in a directory, and a link to it. -/
def linkedDisk : Disk where
  mount := { root := "/", names := ["work"] }
  top := .directory [("b", .directory [("x.groovy", .file [0x80])]), ("y.groovy", .link "b/x.groovy")]

theorem sources_listed_linked :
    ∃ files sink', sources linkedDisk "." {} {} = .ok (files, sink') ∧
      files.map (·.path) = ["b/x.groovy"] ∧
      sink'.pending.map (fun a => (a.path, a.kind)) = [("b/x.groovy", .encoding)] := by
  have hroot : LeadsTo linkedDisk "." [] [_, _] := ⟨[], by decide +kernel, by decide +kernel, rfl⟩
  obtain ⟨_, files, sink', notes, -, -, hsources, hfiles, hpending, hnotes, -⟩ :=
    @sources_listed linkedDisk "." [] _ {} rfl hroot (by decide) {}
  have hlisting : listing [] linkedDisk.top = [(["b", "x.groovy"], [0x80])] := by
    simp [linkedDisk, listing, listings, isTree, regular, byName]
  change files = ((listing [] linkedDisk.top).filter _).map _ at hfiles
  change _ = (listing [] linkedDisk.top).filterMap _ at hnotes
  rw [hlisting] at hfiles hnotes
  refine ⟨files, sink', hsources, ?_, ?_⟩
  · rw [hfiles]
    decide +kernel
  · rw [hpending, map_append, hnotes]
    decide +kernel

end GroovySharp.Discovery
