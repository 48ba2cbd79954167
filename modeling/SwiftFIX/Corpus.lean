/-
  The canonical corpus: `write_canonical` of the generator writes it to a
  directory, `load_corpus` of the benchmarks reads a directory back.

  The directory is writable: files can be made in it, the files it holds can be
  written and read, and the device has room.  It lists its entries in no
  particular order; `loadCorpus` takes any listing.  Whatever the directory held,
  the corpus written to it is loaded, in the order of the names, and both scanners
  read its messages back as their templates (`writeCanonical_loads`).
-/
import Mathlib.Data.String.Basic
import Mathlib.Data.List.Sort
import SwiftFIX.Generator
import SwiftFIX.Rendered

namespace SwiftFIX

open Generator

/-! ## Directories -/

/-- What stands under a name of a directory. -/
inductive Node where
  | file (bytes : Buffer)
  | directory
  deriving DecidableEq, Repr

/-- A writable directory of writable files and of directories: every name
    once. -/
structure Directory where
  entries : List (String × Node)
  nodup : (entries.map Prod.fst).Nodup

namespace Directory

/-- What stands under a name, if anything does. -/
def find (d : Directory) (name : String) : Option Node :=
  (d.entries.find? (·.1 = name)).map Prod.snd

/-- The directory with a file under a name. -/
def put (d : Directory) (name : String) (bytes : Buffer) : Directory where
  entries := d.entries.filter (·.1 ≠ name) ++ [(name, .file bytes)]
  nodup := by
    rw [List.map_append, List.nodup_append]
    refine ⟨d.nodup.sublist (List.filter_sublist.map Prod.fst), List.nodup_singleton _, ?_⟩
    intro x hx y hy
    obtain ⟨e, he, rfl⟩ := List.mem_map.1 hx
    obtain rfl : y = name := by simpa using hy
    simpa using (List.mem_filter.1 he).2

/-- `path.write_bytes(bytes)` of a path in a writable directory: it raises if a
    directory stands there, and writes the file otherwise. -/
def writeBytes (d : Directory) (name : String) (bytes : Buffer) : Option Directory :=
  if d.find name = some .directory then none else some (d.put name bytes)

end Directory

/-! ## The corpus -/

/-- The fields of a template. -/
def template (fields : List (ℤ × String)) : Tags := fields.map fun p => (p.1, p.2.toList)

/-- `TEMPLATES`: the names of the corpus with their fields. -/
def TEMPLATES : List (String × Tags) := [
  ("01_logon", template [(35, "A"), (49, "SENDER"), (56, "TARGET"), (34, "1"),
    (52, "20260101-00:00:00.000"), (98, "0"), (108, "30")]),
  ("02_heartbeat", template [(35, "0"), (49, "SENDER"), (56, "TARGET"), (34, "2"),
    (52, "20260101-00:00:30.000")]),
  ("03_test_request", template [(35, "1"), (49, "SENDER"), (56, "TARGET"), (34, "3"),
    (52, "20260101-00:00:31.000"), (112, "TEST123")]),
  ("04_resend_request", template [(35, "2"), (49, "SENDER"), (56, "TARGET"), (34, "4"),
    (52, "20260101-00:00:32.000"), (7, "10"), (16, "20")]),
  ("05_new_order_single_buy", template [(35, "D"), (49, "SENDER"), (56, "TARGET"), (34, "5"),
    (52, "20260101-00:01:00.000"), (11, "ORD00001"), (21, "1"), (55, "IBM"), (54, "1"),
    (60, "20260101-00:01:00.000"), (38, "100"), (40, "2"), (44, "150.50"), (59, "0")]),
  ("06_new_order_single_sell", template [(35, "D"), (49, "SENDER"), (56, "TARGET"), (34, "6"),
    (52, "20260101-00:01:05.000"), (11, "ORD00002"), (21, "1"), (55, "AAPL"), (54, "2"),
    (60, "20260101-00:01:05.000"), (38, "50"), (40, "1"), (59, "0")]),
  ("07_execution_report_filled", template [(35, "8"), (49, "BROKER"), (56, "SENDER"), (34, "3"),
    (52, "20260101-00:01:00.123"), (37, "EXEC00001"), (17, "FILL00001"), (150, "F"), (39, "2"),
    (55, "IBM"), (54, "1"), (38, "100"), (32, "100"), (31, "150.50"), (151, "0"), (14, "100"),
    (6, "150.50")]),
  ("08_execution_report_partial", template [(35, "8"), (49, "BROKER"), (56, "SENDER"), (34, "4"),
    (52, "20260101-00:01:06.456"), (37, "EXEC00002"), (17, "FILL00002"), (150, "F"), (39, "1"),
    (55, "AAPL"), (54, "2"), (38, "50"), (32, "20"), (31, "200.25"), (151, "30"), (14, "20"),
    (6, "200.25")]),
  ("09_order_cancel_request", template [(35, "F"), (49, "SENDER"), (56, "TARGET"), (34, "7"),
    (52, "20260101-00:02:00.000"), (41, "ORD00001"), (11, "CXL00001"), (55, "IBM"), (54, "1"),
    (60, "20260101-00:02:00.000")]),
  ("10_logout", template [(35, "5"), (49, "SENDER"), (56, "TARGET"), (34, "99"),
    (52, "20260101-00:10:00.000"), (58, "End of session")])]

/-- A round of `write_canonical`; `none` when it raises. -/
def writeTemplate (d : Directory) (t : String × Tags) : Option Directory :=
  (render t.2).bind fun frame => d.writeBytes t.1 frame

/-- A loop whose rounds may raise: whether it ends without raising, and the
    state it leaves. -/
def untilRaise {σ τ : Type} (round : σ → τ → Option σ) : List τ → σ → Bool × σ
  | [], d => (true, d)
  | t :: ts, d =>
    match round d t with
    | none => (false, d)
    | some d => untilRaise round ts d

/-- The loop of `write_canonical` over the templates. -/
def writeTemplates (templates : List (String × Tags)) (d : Directory) : Bool × Directory :=
  untilRaise writeTemplate templates d

/-- `write_canonical(out_dir, dry_run=False)` on the writable directory it makes
    or finds. -/
def writeCanonical (d : Directory) : Bool × Directory := writeTemplates TEMPLATES d

/-- `CorpusMessage`: the name of a file and its bytes. -/
structure CorpusMessage where
  name : String
  bytes : Buffer
  deriving DecidableEq, Repr

/-- `entry.is_regular_file()`, with what the file holds. -/
def regularFile (e : String × Node) : Option CorpusMessage :=
  match e.2 with
  | .file bytes => some ⟨e.1, bytes⟩
  | .directory => none

/-- The regular files of a listing, by their names. -/
def loadFiles (listing : List (String × Node)) : List CorpusMessage :=
  (listing.filterMap regularFile).mergeSort fun a b => a.name ≤ b.name

/-- `operator<<` of a path: `std::quoted`. -/
def quoted (path : String) : String :=
  String.ofList ('"' :: (path.toList.flatMap fun c =>
    if c = '"' ∨ c = '\\' then ['\\', c] else [c]) ++ ['"'])

/-- `load_corpus(dir)`: there may be no directory; one that is there lists its
    entries in any order. -/
def loadCorpus (dir : String) : Option (List (String × Node)) → Except String (List CorpusMessage)
  | none => .error ("corpus directory not found: " ++ quoted dir)
  | some listing => .ok (loadFiles listing)

/-! ## Writing -/

namespace Directory
variable {d : Directory} {name x : String} {bytes : Buffer} {n : Node}

theorem mem_put : (x, n) ∈ (d.put name bytes).entries ↔
    x = name ∧ n = .file bytes ∨ x ≠ name ∧ (x, n) ∈ d.entries := by
  simp only [put, List.mem_append, List.mem_filter, List.mem_singleton, Prod.mk.injEq, ne_eq,
    decide_eq_true_eq]
  exact ⟨fun h => h.symm.imp id And.symm, fun h => h.symm.imp And.symm id⟩

theorem find_eq : d.find name = some n ↔ (name, n) ∈ d.entries := by
  rw [find, Option.map_eq_some_iff]
  constructor
  · rintro ⟨e, he, rfl⟩
    have hkey : e.1 = name := by simpa using List.find?_some he
    rw [← hkey]
    exact List.mem_of_find?_eq_some he
  · intro hmem
    obtain ⟨e, he⟩ : ∃ e, d.entries.find? (·.1 = name) = some e :=
      Option.isSome_iff_exists.1 (List.find?_isSome.2 ⟨_, hmem, by simp⟩)
    have hkey : e.1 = name := by simpa using List.find?_some he
    have hsame := List.inj_on_of_nodup_map d.nodup (List.mem_of_find?_eq_some he) hmem hkey
    exact ⟨e, he, congrArg Prod.snd hsame⟩

end Directory

section
variable {templates : List (String × Tags)}

/-- What writing templates to a directory leaves in it. -/
def HasWritten (templates : List (String × Tags)) (d d' : Directory) : Prop :=
  ∀ x n, (x, n) ∈ d'.entries ↔
    (∃ tags frame, (x, tags) ∈ templates ∧ render tags = some frame ∧ n = .file frame) ∨
      x ∉ templates.map Prod.fst ∧ (x, n) ∈ d.entries

theorem HasWritten.file {d d' : Directory} (h : HasWritten templates d d') {x : String} {b : Buffer} :
    (x, .file b) ∈ d'.entries ↔ (∃ tags, (x, tags) ∈ templates ∧ render tags = some b) ∨
      x ∉ templates.map Prod.fst ∧ (x, .file b) ∈ d.entries := by
  refine (h x (.file b)).trans (or_congr_left ⟨?_, ?_⟩)
  · rintro ⟨tags, frame, htags, hr, hb⟩
    obtain rfl := Node.file.inj hb
    exact ⟨tags, htags, hr⟩
  · rintro ⟨tags, htags, hr⟩
    exact ⟨tags, b, htags, hr, rfl⟩

/-- A round raises exactly if the name is a directory. -/
theorem writeTemplate_eq {d : Directory} {name : String} {tags : Tags} {frame : Buffer}
    (h : render tags = some frame) : writeTemplate d (name, tags) =
      if (name, .directory) ∈ d.entries then none else some (d.put name frame) := by
  rw [writeTemplate, h, Option.bind_some, Directory.writeBytes]
  simp only [Directory.find_eq]

theorem HasWritten.cons {d d' : Directory} {name : String} {tags : Tags} {frame : Buffer}
    (hname : name ∉ templates.map Prod.fst) (hframe : render tags = some frame)
    (h : HasWritten templates (d.put name frame) d') :
    HasWritten ((name, tags) :: templates) d d' := by
  intro x n
  refine (h x n).trans ?_
  rw [Directory.mem_put]
  by_cases hx : x = name
  · subst hx
    have hnone : ∀ tags', (x, tags') ∉ templates := fun _ hmem =>
      hname (List.mem_map.2 ⟨_, hmem, rfl⟩)
    simp [hnone, hname, hframe]
  · simp [hx]

/-- **Templates are written** unless one of their names is a directory. -/
theorem writeTemplates_spec (hnames : (templates.map Prod.fst).Nodup)
    (hrender : ∀ t ∈ templates, (render t.2).isSome) : ∀ d : Directory,
      ((writeTemplates templates d).1 = true ↔ ∀ t ∈ templates, (t.1, .directory) ∉ d.entries) ∧
        ((writeTemplates templates d).1 = true →
          HasWritten templates d (writeTemplates templates d).2) := by
  induction templates with
  | nil =>
    exact fun d => ⟨by simp [writeTemplates, untilRaise], fun _ x n => by
      simp [writeTemplates, untilRaise]⟩
  | cons t templates ih =>
    intro d
    obtain ⟨name, tags⟩ := t
    rw [List.map_cons, List.nodup_cons] at hnames
    rw [List.forall_mem_cons] at hrender
    obtain ⟨frame, hframe⟩ := Option.isSome_iff_exists.1 hrender.1
    rw [writeTemplates, untilRaise, writeTemplate_eq hframe]
    by_cases hdir : (name, .directory) ∈ d.entries
    · simp only [if_pos hdir, Bool.false_eq_true, false_iff, false_implies, and_true]
      exact fun hall => hall _ List.mem_cons_self hdir
    · obtain ⟨htrue, hleaves⟩ := ih hnames.2 hrender.2 (d.put name frame)
      have hother : ∀ t ∈ templates, t.1 ≠ name := fun t ht he =>
        hnames.1 (List.mem_map.2 ⟨t, ht, he⟩)
      simp only [if_neg hdir]
      refine ⟨htrue.trans ?_, fun h => (hleaves h).cons hnames.1 hframe⟩
      rw [List.forall_mem_cons]
      refine Iff.trans ?_ (and_iff_right hdir).symm
      refine forall₂_congr fun t ht => not_congr ?_
      rw [Directory.mem_put]
      simp [hother t ht]

end

/-! ## Loading -/

section
variable {listing listing' : List (String × Node)}

theorem regularFile_eq {e : String × Node} {m : CorpusMessage} :
    regularFile e = some m ↔ e = (m.name, .file m.bytes) := by
  obtain ⟨name, node⟩ := e
  obtain ⟨x, bytes⟩ := m
  cases node with
  | file b => simp [regularFile]
  | directory => simp [regularFile]

theorem mem_loadFiles {m : CorpusMessage} :
    m ∈ loadFiles listing ↔ (m.name, .file m.bytes) ∈ listing := by
  rw [loadFiles, List.mem_mergeSort, List.mem_filterMap]
  simp only [regularFile_eq, exists_eq_right]

theorem loadFiles_perm (listing : List (String × Node)) :
    (loadFiles listing).Perm (listing.filterMap regularFile) := List.mergeSort_perm _ _

theorem names_regularFile (listing : List (String × Node)) :
    ((listing.filterMap regularFile).map CorpusMessage.name).Sublist (listing.map Prod.fst) := by
  induction listing with
  | nil => exact List.Sublist.refl []
  | cons e listing ih =>
    obtain ⟨name, node⟩ := e
    cases node with
    | file bytes => exact ih.cons_cons name
    | directory => exact ih.cons name

theorem loadFiles_pairwise (h : (listing.map Prod.fst).Nodup) :
    (loadFiles listing).Pairwise fun a b => a.name < b.name := by
  have hsorted : (loadFiles listing).Pairwise fun a b => decide (a.name ≤ b.name) :=
    List.pairwise_mergeSort (fun a b c => by simpa using le_trans) (fun a b => by
      simpa using le_total a.name b.name) _
  have hnodup : ((loadFiles listing).map CorpusMessage.name).Nodup :=
    ((loadFiles_perm listing).map _).nodup_iff.2 (h.sublist (names_regularFile listing))
  rw [List.Nodup, List.pairwise_map] at hnodup
  refine (hsorted.and hnodup).imp fun {a b} hab => ?_
  exact lt_of_le_of_ne (of_decide_eq_true hab.1) hab.2

end

/-! ## The corpus, written and loaded -/

instance : DecidablePred Renderable := fun tags =>
  decidable_of_iff (tags.head?.map Prod.fst = some 35 ∧ (∀ p ∈ tags, 1 ≤ p.1 ∧ p.1 ≤ 4294967289) ∧
      (∀ p ∈ tags, p.1 ≠ 95) ∧ (∀ p ∈ tags, p.1 ≠ 96) ∧
      ∀ p ∈ tags, ∀ c ∈ p.2, c.toNat < 128 ∧ c ≠ sohChar)
    ⟨fun ⟨h1, h2, h3, h4, h5⟩ => ⟨h1, h2, h3, h4, h5⟩,
      fun h => ⟨h.first, h.range, h.notLength, h.notData, h.values⟩⟩

set_option maxRecDepth 8000 in
theorem templates_renderable : ∀ t ∈ TEMPLATES,
    Renderable t.2 ∧ t.2.length ≤ 253 ∧ ∀ p ∈ t.2, p.2.length ≤ 440 := by decide

set_option maxRecDepth 8000 in
theorem templates_nodup : (TEMPLATES.map Prod.fst).Nodup := by decide

theorem writeCanonical_spec (d : Directory) :
    ((writeCanonical d).1 = true ↔ ∀ t ∈ TEMPLATES, (t.1, .directory) ∉ d.entries) ∧
      ((writeCanonical d).1 = true → HasWritten TEMPLATES d (writeCanonical d).2) := by
  have hrender : ∀ t ∈ TEMPLATES, (render t.2).isSome := by
    intro t ht
    rw [(templates_renderable t ht).1.render_eq]
    rfl
  rw [writeCanonical]
  exact writeTemplates_spec templates_nodup hrender d

/-- **The corpus that is written is loaded.**  In a writable directory
    `write_canonical` raises exactly if the name of a template is a directory.  If
    it does not, then whatever the directory held and in whatever order it lists
    its entries, the files are loaded once each and in the order of their names,
    the templates as they are rendered and every other file as it was; and both
    scanners take the message of a template for a whole frame and spell its
    fields. -/
theorem writeCanonical_loads (d : Directory) :
    ((writeCanonical d).1 = true ↔ ∀ t ∈ TEMPLATES, (t.1, .directory) ∉ d.entries) ∧
    ((writeCanonical d).1 = true → ∀ listing, listing.Perm (writeCanonical d).2.entries → ∀ dir,
      ∃ ms, loadCorpus dir (some listing) = .ok ms ∧ (ms.Pairwise fun a b => a.name < b.name) ∧
        (∀ m, m ∈ ms ↔ (∃ tags, (m.name, tags) ∈ TEMPLATES ∧ render tags = some m.bytes) ∨
          m.name ∉ TEMPLATES.map Prod.fst ∧ (m.name, .file m.bytes) ∈ d.entries) ∧
        ∀ m ∈ ms, ∀ tags, (m.name, tags) ∈ TEMPLATES → ∀ (s : Scanner) (out : FieldIndex), ∃ v,
          (s.scan m.bytes out).result = some (.ok, v) ∧ v.frameLength = m.bytes.length ∧
            pairsOf m.bytes v = tags) := by
  obtain ⟨htrue, hwritten⟩ := writeCanonical_spec d
  refine ⟨htrue, fun h listing hperm dir => ⟨loadFiles listing, rfl, ?_, fun m => ?_,
    fun m hm tags htags s out => ?_⟩⟩
  · exact loadFiles_pairwise ((hperm.map Prod.fst).nodup_iff.2 (writeCanonical d).2.nodup)
  · exact mem_loadFiles.trans (hperm.mem_iff.trans (hwritten h).file)
  · have hmem := (hwritten h).file.1 (hperm.mem_iff.1 (mem_loadFiles.1 hm))
    obtain ⟨hrenderable, hlen, hvalues⟩ := templates_renderable _ htags
    have hr : render tags = some m.bytes := by
      rcases hmem with ⟨tags', htags', hr⟩ | ⟨hnone, -⟩
      · have hsame := List.inj_on_of_nodup_map templates_nodup htags htags' rfl
        rwa [(Prod.mk.inj hsame).2]
      · exact absurd (List.mem_map.2 ⟨_, htags, rfl⟩) hnone
    exact hrenderable.scan_back hlen hr (hrenderable.short hlen hvalues hr) s out

end SwiftFIX
