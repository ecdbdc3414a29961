import GroovySharp.Proofs.OutputPlaces
import GroovySharp.Proofs.StoreLimit

/-!
# The accounts of a store

A C# text is written and counted before the limit is looked at, and logged after that; one that passes
the limit is removed, with the text whose place it took.
-/

namespace GroovySharp.Store

open Unicode Disk List

/-! ### Texts that were tried -/

def isTextLine (line : String) : Bool := "wrote_cs:".toList.isPrefixOf line.toList

theorem isTextLine_append (path : String) : isTextLine ("wrote_cs:" ++ path) = true := by
  rw [isTextLine, String.toList_append, isPrefixOf_iff_prefix]
  exact prefix_append _ _

theorem isTextLine_partLine (t : Table) (name : String) : isTextLine (partLine t name) = false := by
  rw [isTextLine, partLine, String.toList_append, String.toList_append, String.toList_append]
  cases t <;> rfl

def Try.content? (t : Try) : Option Bytes := if t.kept then some (bytesOf t.delivery.text) else none

def lastTry (ts : List Try) (names : List String) : Option Try :=
  ts.reverse.find? fun t => place t.delivery.source == names

theorem lastTry_concat (ts : List Try) (t : Try) (names : List String) :
    lastTry (ts ++ [t]) names = if place t.delivery.source = names then some t else lastTry ts names := by
  by_cases h : place t.delivery.source = names <;> simp [lastTry, h]

theorem of_lastTry_eq_some {ts : List Try} {names : List String} {t : Try} (h : lastTry ts names = some t) :
    t ∈ ts ∧ place t.delivery.source = names :=
  ⟨mem_reverse.mp (mem_of_find?_eq_some h), by simpa using find?_some h⟩

structure TextAccounts (ts : List Try) (s : Store) : Prop where
  named : ∀ t ∈ ts, (Path.ofText t.delivery.source).names ≠ []
  /-- All of them are counted. -/
  outputs : s.outputs = ts.length
  /-- The log has those that were kept. -/
  lines : s.log.filter isTextLine = (ts.filter (·.kept)).map (textLine ·.delivery.source)
  size : s.log.length = (ts.filter (·.kept)).length + (s.pages .results).length + (s.pages .anomalies).length
  bytes : s.bytesWritten = ((ts.filter (·.kept)).map (bytesOf ·.delivery.text |>.length)).sum +
    ((s.pages .results).map (·.length)).sum + ((s.pages .anomalies).map (·.length)).sum
  /-- The last one for each place has a file there if it was kept, and no other has one. -/
  files : ∀ rest, s.file? (outputDirectory :: rest) = (lastTry ts (outputDirectory :: rest)).bind Try.content?

section

variable {out : Path} {name : String} {s s' : Store} {deed : Deed} {ts : List Try}

theorem Does.outputs_eq (hdoes : Does deed s s') : s'.outputs = s.outputs + deed.tries.length := by
  cases hdoes with
  | @part _ t | @row _ t => cases t <;> rfl
  | _ => rfl

def Deed.size (s : Store) : Deed → Nat
  | text x kept => if kept then (bytesOf x.text).length else 0
  | part t kept => if kept then (s.nextPage t).length else 0
  | directories | row _ _ => 0

theorem Does.bytesWritten_eq (hdoes : Does deed s s') : s'.bytesWritten = s.bytesWritten + deed.size s := by
  cases hdoes with
  | @part _ t | @row _ t => cases t <;> rfl
  | _ => rfl

theorem Does.accounts (hplaced : Placed out name s) (h : TextAccounts ts s) (hdoes : Does deed s s') :
    TextAccounts (ts ++ deed.tries) s' where
  named t ht := (mem_append.mp ht).elim (h.named t) fun ht => ((hdoes.fit hplaced).1 t ht).1
  outputs := by rw [hdoes.outputs_eq, h.outputs, length_append]
  lines := by
    rw [hdoes.log_eq, filter_append, filter_append, map_append, h.lines]
    congr 1
    cases deed with
    | text x kept => cases kept <;> simp [Deed.lines, Deed.tries, textLine, isTextLine_append]
    | part t kept => cases kept <;> simp [Deed.lines, Deed.tries, isTextLine_partLine]
    | _ => rfl
  size := by
    rw [hdoes.log_eq, length_append, h.size, hdoes.pages_eq, hdoes.pages_eq]
    cases deed with
    | text x kept =>
      cases kept with
      | false => simp [Deed.lines, Deed.tries, Deed.pagesAfter]
      | true =>
        simp [Deed.lines, Deed.tries, Deed.pagesAfter]
        omega
    | part t kept => cases t <;> cases kept <;> simp [Deed.lines, Deed.tries, Deed.pagesAfter] <;> omega
    | _ => simp [Deed.lines, Deed.tries, Deed.pagesAfter]
  bytes := by
    rw [hdoes.bytesWritten_eq, h.bytes, hdoes.pages_eq, hdoes.pages_eq]
    cases deed with
    | text x kept =>
      cases kept with
      | false => simp [Deed.size, Deed.tries, Deed.pagesAfter]
      | true =>
        simp [Deed.size, Deed.tries, Deed.pagesAfter]
        omega
    | part t kept => cases t <;> cases kept <;> simp [Deed.size, Deed.tries, Deed.pagesAfter] <;> omega
    | _ => simp [Deed.size, Deed.tries, Deed.pagesAfter]
  files rest := by
    rw [(hdoes.placed hplaced).2, h.files]
    cases deed with
    | text x kept =>
      rw [Deed.fileAfter, Deed.tries, lastTry_concat]
      by_cases hsame : place x.source = outputDirectory :: rest
      · rw [if_pos hsame.symm, if_pos hsame]
        rfl
      · rw [if_neg (Ne.symm hsame), if_neg hsame]
    | part t kept =>
      have hother : outputDirectory :: rest ≠ [t.directory, s.nextName t] := fun heq =>
        outputDirectory_ne_directory t (cons.inj heq).1
      rw [Deed.fileAfter, if_neg hother, Deed.tries, append_nil]
    | _ => rw [Deed.fileAfter, Deed.tries, append_nil]

theorem accounts_fresh (config : StoreConfig) (out : Path) (name : String) :
    TextAccounts [] (fresh config out name) where
  named _ ht := absurd ht not_mem_nil
  outputs := rfl
  lines := rfl
  size := rfl
  bytes := rfl
  files _ := file?_fresh config out name _

theorem Receipted.accounts {content : Bytes} (hplaced : Placed out name s) (h : TextAccounts ts s)
    (hwrites : Receipted content s s') : TextAccounts ts s' := by
  have hfiles := (hwrites.placed hplaced).2
  obtain ⟨own, -, rfl⟩ := hwrites
  refine ⟨h.named, h.outputs, h.lines, h.size, h.bytes, fun rest => ?_⟩
  rw [hfiles, if_neg, h.files]
  intro heq
  exact absurd (cons.inj heq).1 (by decide)

/-! ### Agreement -/

def FilesNamed (s : Store) : Prop :=
  ∀ path, "wrote_cs:" ++ path ∈ s.log ↔ ∃ rest,
    (s.file? (outputDirectory :: rest)).isSome = true ∧ "/".intercalate (outputDirectory :: rest) = path

theorem TextAccounts.outputs_eq_iff (h : TextAccounts ts s) :
    s.outputs = (s.log.filter isTextLine).length ↔ ∀ t ∈ ts, t.kept = true := by
  rw [h.outputs, h.lines, length_map, eq_comm]
  exact length_filter_eq_length_iff

theorem TextAccounts.mem_log_iff (h : TextAccounts ts s) (path : String) :
    "wrote_cs:" ++ path ∈ s.log ↔
      ∃ t ∈ ts, t.kept = true ∧ outputPath t.delivery.source = path := by
  have hline : "wrote_cs:" ++ path ∈ s.log ↔ "wrote_cs:" ++ path ∈ s.log.filter isTextLine := by
    rw [mem_filter, isTextLine_append, and_iff_left rfl]
  rw [hline, h.lines, mem_map]
  refine exists_congr fun t => ?_
  rw [mem_filter, textLine, String.append_right_inj, and_assoc]

theorem TextAccounts.exists_file_iff (h : TextAccounts ts s) (path : String) :
    (∃ rest, (s.file? (outputDirectory :: rest)).isSome = true ∧
        "/".intercalate (outputDirectory :: rest) = path) ↔
      ∃ t ∈ ts, outputPath t.delivery.source = path ∧
        ∃ t', lastTry ts (place t.delivery.source) = some t' ∧ t'.kept = true := by
  constructor
  · rintro ⟨rest, hsome, rfl⟩
    rw [h.files] at hsome
    cases hlast : lastTry ts (outputDirectory :: rest) with
    | none =>
      rw [hlast] at hsome
      cases hsome
    | some t =>
      obtain ⟨ht, hplace⟩ := of_lastTry_eq_some hlast
      rw [hlast, Option.bind_some, Try.content?] at hsome
      refine ⟨t, ht, by rw [outputPath, hplace], t, by rw [hplace, hlast], ?_⟩
      by_contra hrefused
      rw [if_neg hrefused] at hsome
      cases hsome
  · rintro ⟨t, ht, rfl, t', hlast, hkept⟩
    obtain ⟨rest, hrest⟩ : ∃ rest, place t.delivery.source = outputDirectory :: rest := ⟨_, rfl⟩
    refine ⟨rest, ?_, by rw [outputPath, hrest]⟩
    rw [h.files, ← hrest, hlast, Option.bind_some, Try.content?, if_pos hkept]
    rfl

theorem TextAccounts.filesNamed_iff (h : TextAccounts ts s) : FilesNamed s ↔ ∀ t ∈ ts, t.kept = true →
      ∃ t', lastTry ts (place t.delivery.source) = some t' ∧ t'.kept = true := by
  have hplaces {t t' : Try} (ht : t ∈ ts) (ht' : t' ∈ ts)
      (hpath : outputPath t.delivery.source = outputPath t'.delivery.source) :
      place t.delivery.source = place t'.delivery.source :=
    (place_eq_iff (h.named t ht) (h.named t' ht')).mpr ((outputPath_eq_iff (h.named t ht) (h.named t' ht')).mp hpath)
  unfold FilesNamed
  simp only [h.mem_log_iff, h.exists_file_iff]
  constructor
  · intro hsame t ht hkept
    obtain ⟨t', ht', hpath, hlast⟩ := (hsame _).mp ⟨t, ht, hkept, rfl⟩
    rwa [hplaces ht ht' hpath.symm]
  · intro hlasts path
    constructor
    · rintro ⟨t, ht, hkept, rfl⟩
      exact ⟨t, ht, rfl, hlasts t ht hkept⟩
    · rintro ⟨t, ht, rfl, t', hlast, hkept⟩
      obtain ⟨ht', hplace⟩ := of_lastTry_eq_some hlast
      exact ⟨t', ht', hkept, by rw [outputPath, outputPath, hplace]⟩

end

/-! ### Operations -/

inductive Op
  | call (c : Call)
  | finalize (now : Moment) (more : Fields) (d : Disk)

namespace Op

/-- Carries out an operation; gives the disk if the store was published. -/
def apply (op : Op) (s : Store) : Except StoreFault (Option Disk) × Store :=
  match op with
  | call c =>
    match s.call c with
    | (.error f, s) => (.error f, s)
    | (.ok (), s) => (.ok none, s)
  | finalize now more d =>
    match s.finalize now more d with
    | (.error f, s) => (.error f, s)
    | (.ok d, s) => (.ok (some d), s)

def publishes (op : Op) (s : Store) : Bool :=
  match (op.apply s).1 with
  | .ok (some _) => true
  | .ok none | .error _ => false

def triesIn (op : Op) (s : Store) : List Try :=
  match op with
  | call c => c.triesIn s
  | finalize .. => []

end Op

def operate : List Op → Store → Option Store
  | [], s => some s
  | op :: ops, s => if op.publishes s then none else operate ops (op.apply s).2

def tries : List Op → Store → List Try
  | [], _ => []
  | op :: ops, s => op.triesIn s ++ tries ops (op.apply s).2

section

variable {s s' : Store} {ts : List Try}

theorem Op.keeps (inv : List Try → Store → Prop)
    (hstep : ∀ {deed : Deed} {s s' : Store} {ts}, Does deed s s' → inv ts s → inv (ts ++ deed.tries) s')
    (hreceipt : ∀ {content : Bytes} {s s' : Store} {ts}, Receipted content s s' → inv ts s → inv ts s')
    (op : Op) (ts : List Try) (hopen : op.publishes s = false) (hs : inv ts s) :
    inv (ts ++ op.triesIn s) (op.apply s).2 := by
  have hdeeds {ts' rows notes well} {s s' : Store} (h : Leads ts' rows notes well s s') (hs : inv ts s) :
      inv (ts ++ ts') s' :=
    h.keeps (fun ts _ _ s => inv ts s) ts [] [] (fun hdoes h => hstep hdoes h) hs
  cases op with
  | call c =>
    have hcall := hdeeds (leads_call c s) hs
    unfold apply
    dsimp only
    cases heq : s.call c with
    | mk outcome s₁ =>
      rw [heq] at hcall
      cases outcome with
      | error f | ok _ => exact hcall
  | finalize now more d =>
    rw [triesIn, append_nil]
    unfold publishes apply at hopen
    unfold apply
    dsimp only at hopen ⊢
    cases heq : s.finalize now more d with
    | mk outcome s₂ =>
      rw [heq] at hopen
      cases outcome with
      | ok d' => cases hopen
      | error f =>
        obtain ⟨s₁, hleads, hdone⟩ := leads_of_finalize_eq_error heq
        have hs₁ := hdeeds hleads hs
        rw [append_nil] at hs₁
        rcases hdone with rfl | ⟨content, hwrites⟩
        · exact hs₁
        · exact hreceipt hwrites hs₁

theorem operate_keeps (inv : List Try → Store → Prop)
    (hstep : ∀ {deed : Deed} {s s' : Store} {ts}, Does deed s s' → inv ts s → inv (ts ++ deed.tries) s')
    (hreceipt : ∀ {content : Bytes} {s s' : Store} {ts}, Receipted content s s' → inv ts s → inv ts s')
    {ops : List Op} (h : s.operate ops = some s') (hs : inv ts s) : inv (ts ++ s.tries ops) s' := by
  induction ops generalizing s ts with
  | nil =>
    cases h
    rw [tries, append_nil]
    exact hs
  | cons op ops ih =>
    rw [operate] at h
    split at h
    · cases h
    · next hopen =>
      have hrest := ih h (op.keeps inv hstep hreceipt ts (Bool.not_eq_true _ ▸ hopen) hs)
      rw [tries, ← append_assoc]
      exact hrest

/-! ### Operations that fail -/

/-- Nothing that was counted or logged has changed, and no file. -/
structure Untouched (s s' : Store) : Prop where
  outputs : s'.outputs = s.outputs
  bytesWritten : s'.bytesWritten = s.bytesWritten
  log : s'.log = s.log
  files : ∀ names content, s.file? names = some content → s'.file? names = some content

theorem TextAccounts.untouched_iff {ts' : List Try} (h : TextAccounts ts s) (h' : TextAccounts (ts ++ ts') s')
    (hspares : Spares s ts' s') : Untouched s s' ↔ ts' = [] ∧ (∀ t, s'.pages t = s.pages t) ∧
      ∀ content, s.file? [receiptName] = some content → s'.file? [receiptName] = some content := by
  have hresults := (hspares.pages .results).length_le
  have hanomalies := (hspares.pages .anomalies).length_le
  constructor
  · intro hsame
    have hnone : ts' = [] := by
      have hcount := h'.outputs
      rw [hsame.outputs, h.outputs, length_append] at hcount
      exact eq_nil_of_length_eq_zero (by omega)
    have hlines := h'.size
    rw [hsame.log, h.size, hnone, append_nil] at hlines
    refine ⟨hnone, fun t => ?_, fun content hcontent => hsame.files _ content hcontent⟩
    cases t with
    | results => exact ((hspares.pages .results).eq_of_length (by omega)).symm
    | anomalies => exact ((hspares.pages .anomalies).eq_of_length (by omega)).symm
  · rintro ⟨rfl, hpages, hreceipt⟩
    rw [append_nil] at h'
    refine ⟨h'.outputs.trans h.outputs.symm, ?_, ?_, fun names content hcontent => ?_⟩
    · rw [h'.bytes, h.bytes, hpages, hpages]
    · refine (hspares.log.eq_of_length ?_).symm
      rw [h'.size, h.size, hpages, hpages]
    · by_cases hnames : names = [receiptName]
      · subst hnames
        exact hreceipt content hcontent
      · exact hspares.files names content hnames (fun _ ht => absurd ht not_mem_nil) hcontent

/-! ### Runs -/

/-- A store whose files are in order, with what it says of the C# texts that were tried. -/
structure Booked (out : Path) (name : String) (ts : List Try) (s : Store) : Prop where
  placed : Placed out name s
  paged : Paged s
  accounts : TextAccounts ts s

variable {out : Path} {name : String} {deed : Deed}

theorem booked_fresh (config : StoreConfig) (out : Path) (name : String) :
    Booked out (name ++ ".staging") [] (fresh config out name) :=
  ⟨placed_fresh config out name, paged_fresh config out name, accounts_fresh config out name⟩

theorem Booked.does (h : Booked out name ts s) (hdoes : Does deed s s') : Booked out name (ts ++ deed.tries) s' :=
  ⟨(hdoes.placed h.placed).1, hdoes.paged h.placed h.paged, hdoes.accounts h.placed h.accounts⟩

theorem Booked.receipted {content : Bytes} (h : Booked out name ts s) (hwrites : Receipted content s s') :
    Booked out name ts s' :=
  ⟨(hwrites.placed h.placed).1, hwrites.paged h.placed h.paged, hwrites.accounts h.placed h.accounts⟩

theorem Booked.operate {ops : List Op} (h : Booked out name ts s) (hops : s.operate ops = some s') :
    Booked out name (ts ++ s.tries ops) s' :=
  operate_keeps (Booked out name) (fun hdoes hs => hs.does hdoes) (fun hwrites hs => hs.receipted hwrites) hops h

theorem Booked.apply_error {op : Op} {f : StoreFault} (h : Booked out name ts s)
    (hfails : op.apply s = (.error f, s')) : TextAccounts (ts ++ op.triesIn s) s' ∧ Spares s (op.triesIn s) s' := by
  have hopen : op.publishes s = false := by rw [Op.publishes, hfails]
  have hboth := op.keeps (fun ts' s' => Booked out name (ts ++ ts') s' ∧ Spares s ts' s') (fun hdoes hs => ⟨by
      rw [← append_assoc]
      exact hs.1.does hdoes, hdoes.spares hs.1.placed hs.1.paged hs.2⟩)
    (fun hwrites hs => ⟨hs.1.receipted hwrites, hwrites.spares hs.1.placed hs.2⟩) [] hopen
    ⟨by rwa [append_nil], Spares.refl s⟩
  rw [hfails] at hboth
  exact ⟨hboth.1.accounts, hboth.2⟩

theorem Booked.finalize {names : Spot} {d d' : Disk} {now : Moment}
    {more : Fields} (h : Booked out (name ++ ".staging") ts s)
    (hd : Opened d out names name) (hnamed : out.name? = some name) (hok : s.finalize now more d = (.ok d', s')) :
    s'.outputs = s.outputs ∧ s'.log.filter isTextLine = s.log.filter isTextLine ∧
      ∀ rest, fileAt? d'.top (names ++ [name] ++ outputDirectory :: rest) = s.file? (outputDirectory :: rest) := by
  obtain ⟨s₁, hflush, ⟨own, rfl⟩, -, hfiles⟩ := h.placed.finalize hd hnamed hok
  have hleads := leads_flushAll true s
  rw [hflush] at hleads
  have hbooked : Booked out (name ++ ".staging") (ts ++ []) s₁ :=
    hleads.keeps (fun ts _ _ s => Booked out (name ++ ".staging") ts s) ts [] []
      (fun hdoes hs => hs.does hdoes) h
  rw [append_nil] at hbooked
  refine ⟨hbooked.accounts.outputs.trans h.accounts.outputs.symm,
    hbooked.accounts.lines.trans h.accounts.lines.symm, fun rest => ?_⟩
  have hother : outputDirectory :: rest ≠ [receiptName] := fun heq =>
    absurd (cons.inj heq).1 (by decide)
  rw [hfiles, if_neg hother, hbooked.accounts.files, h.accounts.files]

end

/-- What a store says of the C# texts that operations have tried, when the things that it says agree, and
what becomes of them. -/
structure TextsAccounted (d d₁ : Disk) (out : Path) (ts : List Try) (s : Store) : Prop where
  accounts : TextAccounts ts s
  /-- The count and the log agree unless a text was refused. -/
  counted : s.outputs = (s.log.filter isTextLine).length ↔ ∀ t ∈ ts, t.kept = true
  /-- The log and the files agree unless a text that was refused took the place of one that was kept. -/
  filesNamed : FilesNamed s ↔ ∀ t ∈ ts, t.kept = true →
    ∃ t', lastTry ts (place t.delivery.source) = some t' ∧ t'.kept = true
  /-- An operation that fails changes nothing if it has tried no text, written no part and replaced no
  receipt, and only then. -/
  failed : ∀ op f s', Op.apply op s = (.error f, s') →
    (Untouched s s' ↔ op.triesIn s = [] ∧ (∀ t, s'.pages t = s.pages t) ∧
      ∀ content, s.file? [receiptName] = some content → s'.file? [receiptName] = some content)
  published : ∀ names name, HasRoom d out names name → ∀ now more d₂ s₂, s.finalize now more d₁ = (.ok d₂, s₂) →
      s₂.outputs = s.outputs ∧ s₂.log.filter isTextLine = s.log.filter isTextLine ∧
        ∀ rest, fileAt? d₂.top (names ++ [name] ++ outputDirectory :: rest) = s.file? (outputDirectory :: rest)

/-- Whatever operations a store has gone through, it counts the texts that were tried, logs those that were
kept, and has the last one for each place unless that was refused. -/
theorem textsAccounted_of_operate (config : StoreConfig) (out : Path) (d d₁ : Disk) (s₀ s : Store)
    (ops : List Op) (hstart : start config out d = .ok (s₀, d₁)) (hops : s₀.operate ops = some s) :
    TextsAccounted d d₁ out (s₀.tries ops) s := by
  obtain ⟨name, hnamed, rfl⟩ := eq_fresh_of_start hstart
  have hbooked := (booked_fresh config out name).operate hops
  rw [nil_append] at hbooked
  refine ⟨hbooked.accounts, hbooked.accounts.outputs_eq_iff, hbooked.accounts.filesNamed_iff, ?_, ?_⟩
  · intro op f s' hfails
    obtain ⟨haccounts, hspares⟩ := hbooked.apply_error hfails
    exact hbooked.accounts.untouched_iff haccounts hspares
  · intro names name' hroom now more d₂ s₂ hfinal
    obtain rfl : name = name' := Option.some.inj (hnamed.symm.trans hroom.named)
    obtain ⟨d', hstart', hopened⟩ := hroom.start_eq_ok config
    obtain rfl : d' = d₁ := (Prod.mk.inj (Except.ok.inj (hstart'.symm.trans hstart))).2
    exact hbooked.finalize hopened hnamed hfinal

def narrowOps : List Op :=
  [.call (.write "a.groovy" (points "x = 1;\n")), .call (.write "b.groovy" (points "y = 22;\n")),
    .finalize { epoch := 0 } [] (Batch.diskOf [])]

theorem textsAccounted_narrow :
    ∃ s₀ d₁ s, start narrow { names := ["out"] } (Batch.diskOf []) = .ok (s₀, d₁) ∧
      s₀.operate narrowOps = some s ∧ s.outputs = 2 ∧ s.log = ["wrote_cs:cs/a.cs"] ∧
      TextsAccounted (Batch.diskOf []) d₁ { names := ["out"] } (s₀.tries narrowOps) s := by
  have hends : ((start narrow { names := ["out"] } (Batch.diskOf [])).toOption.bind fun x =>
      (x.1.operate narrowOps).map fun s => (s.outputs, s.log)) = some (2, ["wrote_cs:cs/a.cs"]) := by
    decide +kernel
  cases hstart : start narrow { names := ["out"] } (Batch.diskOf []) with
  | error f =>
    rw [hstart] at hends
    cases hends
  | ok x =>
    rw [hstart] at hends
    obtain ⟨s, hops, hsays⟩ := Option.map_eq_some_iff.mp hends
    obtain ⟨houtputs, hlog⟩ := Prod.mk.inj hsays
    exact ⟨x.1, x.2, s, rfl, hops, houtputs, hlog, textsAccounted_of_operate narrow { names := ["out"] }
      (Batch.diskOf []) x.2 x.1 s narrowOps hstart hops⟩

/-- A text that is refused takes away the one that was there, which the log still names, and is counted. -/
theorem refused_text_takes_file_away :
    (start narrow { names := ["out"] } (Batch.diskOf [])).toOption.map (fun x =>
      let s₁ := x.1.after [.write "a.groovy" (points "x = 1;\n")]
      let s₂ := s₁.after [.write "a.groovy" (points "y = 22;\n")]
      [(s₁.outputs, s₁.log, s₁.file? ["cs", "a.cs"]), (s₂.outputs, s₂.log, s₂.file? ["cs", "a.cs"])]) =
    some [(1, ["wrote_cs:cs/a.cs"], some (bytesOf (points "x = 1;\n"))),
      (2, ["wrote_cs:cs/a.cs"], none)] := by
  decide +kernel

end GroovySharp.Store
