import Stencil.Proofs.Text
import Stencil.Views

/-!
# Names and paths

The path to a view can be written in many ways: with slashes of either kind and several of them in a
row, with single dots among the names, with extensions after the last name. `Spells` says how, apart
from any way to read a path. A view is named by the names alone (`nameOf_of_spells`): slashes and dots
vanish when the path is split and sifted (`parts_of_joined`, `filter_of_dotted`), and extensions when
the last part is cut at its first dot. As no name holds a dot, the names can be told from what they
make together, so that two paths give one name exactly if they lead along the same names
(`nameOf_eq_iff`).
-/

namespace Stencil.Views

/-! ## How a path is written -/

/-- A slash of either kind separates the parts of a path. -/
def isSlash (c : Char) : Bool := c == '/' || c == '\\'

/-- A name in a path is not empty, and it has neither dots nor slashes. -/
def IsName (s : Text) : Prop := s ≠ [] ∧ ∀ c ∈ s, c ≠ '.' ∧ ¬isSlash c

/-- Extensions begin with a dot and have no slash. There may be none. -/
def IsExtensions (s : Text) : Prop := (∀ c ∈ s.head?, c = '.') ∧ ∀ c ∈ s, ¬isSlash c

/-- Names as the parts of a path: the last one has the extensions, and single dots stand anywhere among
them. -/
inductive Dotted (extensions : Text) : (names parts : List Text) → Prop where
  | last {name : Text} {dots : List Text} (hdots : ∀ part ∈ dots, part = ['.']) :
      Dotted extensions [name] ((name ++ extensions) :: dots)
  | name {name : Text} {names parts : List Text} (rest : Dotted extensions names parts) :
      Dotted extensions (name :: names) (name :: parts)
  | dot {names parts : List Text} (rest : Dotted extensions names parts) :
      Dotted extensions names (['.'] :: parts)

/-- Parts with runs of slashes between them. There may be slashes after the last one. -/
inductive Joined : (parts : List Text) → (path : Text) → Prop where
  | last {part trail : Text} (htrail : ∀ c ∈ trail, isSlash c) : Joined [part] (part ++ trail)
  | more {part run path : Text} {parts : List Text} (nonempty : run ≠ [])
      (hrun : ∀ c ∈ run, isSlash c) (rest : Joined parts path) :
      Joined (part :: parts) (part ++ run ++ path)

/-- How a path is written that leads along some names. There may be slashes before the first part. -/
inductive Spells (names : List Text) : (path : Text) → Prop where
  | mk {extensions lead path : Text} {parts : List Text} (hnames : ∀ name ∈ names, IsName name)
      (hextensions : IsExtensions extensions) (dotted : Dotted extensions names parts)
      (hlead : ∀ c ∈ lead, isSlash c) (joined : Joined parts path) : Spells names (lead ++ path)

theorem Dotted.ne_nil {extensions : Text} {names parts : List Text}
    (h : Dotted extensions names parts) : names ≠ [] := by
  induction h with
  | last => simp
  | name => simp
  | dot _ ih => exact ih

/-! ## The parts of a path -/

/-- A part counts if it is neither empty nor a single dot. -/
def counts (part : Text) : Bool := part ≠ [] ∧ part ≠ ['.']

/-- The parts of a path that count. -/
def parts (path : Text) : List Text := (Text.pieces isSlash path).filter counts

theorem nameOf_eq (path : Text) : nameOf path = ['.'].intercalate ((parts path).dropLast ++
    ((parts path).getLast?.map fun part => part.takeWhile (· ≠ '.')).toList) := rfl

theorem parts_cons {c : Char} (hc : isSlash c) (path : Text) : parts (c :: path) = parts path := by
  rw [parts, Text.pieces, if_pos hc]
  rfl

/-- Slashes before a path make no difference. -/
theorem parts_append {run : Text} (hrun : ∀ c ∈ run, isSlash c) (path : Text) :
    parts (run ++ path) = parts path := by
  induction run with
  | nil => rfl
  | cons c run ih =>
    rw [List.cons_append, parts_cons (hrun c List.mem_cons_self)]
    exact ih fun d hd => hrun d (List.mem_cons_of_mem _ hd)

theorem parts_of_slashes {run : Text} (hrun : ∀ c ∈ run, isSlash c) : parts run = [] := by
  rw [← List.append_nil run, parts_append hrun]
  rfl

/-- A part ends at the first slash. -/
theorem parts_part {part rest : Text} (hpart : ∀ c ∈ part, ¬isSlash c)
    (hrest : ∀ c ∈ rest.head?, isSlash c) :
    parts (part ++ rest) = [part].filter counts ++ parts rest := by
  have hpart' : ∀ c ∈ part, isSlash c = false := fun c hc => Bool.eq_false_iff.mpr (hpart c hc)
  cases rest with
  | nil =>
    have hnone : parts [] = [] := parts_of_slashes nofun
    rw [hnone, List.append_nil, List.append_nil, parts,
      Text.pieces_eq_splitOnP, List.splitOnP_eq_singleton hpart']
  | cons c rest =>
    have hc : isSlash c := hrest c rfl
    rw [parts_cons hc, parts, Text.pieces_eq_splitOnP,
      List.splitOnP_append_cons_of_forall_mem hpart' c hc, ← Text.pieces_eq_splitOnP]
    exact List.filter_append [part] _

/-- The parts that a path is joined of, as far as they count. -/
theorem parts_of_joined {all : List Text} {path : Text} (h : Joined all path)
    (hall : ∀ part ∈ all, ∀ c ∈ part, ¬isSlash c) : parts path = all.filter counts := by
  have slashes {run : Text} (hrun : ∀ c ∈ run, isSlash c) (rest : Text) (hne : run ≠ []) :
      ∀ c ∈ (run ++ rest).head?, isSlash c := by
    rw [List.head?_append_of_ne_nil _ hne]
    exact fun c hc => hrun c (List.mem_of_mem_head? hc)
  induction h with
  | @last part trail htrail =>
    have hhead : ∀ c ∈ trail.head?, isSlash c := fun c hc => htrail c (List.mem_of_mem_head? hc)
    rw [parts_part (hall part List.mem_cons_self) hhead, parts_of_slashes htrail, List.append_nil]
  | @more part run path all nonempty hrun _ ih =>
    rw [List.append_assoc,
      parts_part (hall part List.mem_cons_self) (slashes hrun path nonempty), parts_append hrun,
      ih fun other hother => hall other (List.mem_cons_of_mem _ hother)]
    exact (List.filter_append [part] all).symm

/-! ## Names among dots -/

theorem IsName.counts_append {name : Text} (h : IsName name) (extensions : Text) :
    counts (name ++ extensions) := by
  obtain ⟨c, rest, rfl⟩ := List.exists_cons_of_ne_nil h.1
  have hc : c ≠ '.' := (h.2 c List.mem_cons_self).1
  simp [counts, hc]

variable {extensions : Text} {names all : List Text}

/-- What counts are the names, of which the last one has the extensions. -/
theorem filter_of_dotted (h : Dotted extensions names all) (hnames : ∀ name ∈ names, IsName name) :
    ∃ before last, names = before ++ [last] ∧
      all.filter counts = before ++ [last ++ extensions] := by
  induction h with
  | @last name dots hdots =>
    have hnone : dots.filter counts = [] := by
      rw [List.filter_eq_nil_iff]
      intro part hpart
      rw [hdots part hpart]
      decide
    refine ⟨[], name, rfl, ?_⟩
    rw [List.filter_cons_of_pos ((hnames name List.mem_cons_self).counts_append extensions), hnone]
    rfl
  | @name name names all _ ih =>
    obtain ⟨before, last, rfl, hfilter⟩ := ih fun other hother =>
      hnames other (List.mem_cons_of_mem _ hother)
    have hcounts : counts name := by
      simpa using (hnames name List.mem_cons_self).counts_append []
    refine ⟨name :: before, last, rfl, ?_⟩
    rw [List.filter_cons_of_pos hcounts, hfilter]
    rfl
  | dot _ ih =>
    rw [List.filter_cons_of_neg (by decide)]
    exact ih hnames

theorem not_isSlash_of_dotted (h : Dotted extensions names all)
    (hnames : ∀ name ∈ names, IsName name) (hextensions : IsExtensions extensions) :
    ∀ part ∈ all, ∀ c ∈ part, ¬isSlash c := by
  have hdot : ∀ c ∈ ['.'], ¬isSlash c := by simp [isSlash]
  have hname {name : Text} (hmem : name ∈ names) : ∀ c ∈ name, ¬isSlash c :=
    fun c hc => ((hnames name hmem).2 c hc).2
  induction h with
  | @last name dots hdots =>
    rw [List.forall_mem_cons]
    refine ⟨fun c hc => ?_, fun part hpart => hdots part hpart ▸ hdot⟩
    rcases List.mem_append.mp hc with hc | hc
    · exact hname List.mem_cons_self c hc
    · exact hextensions.2 c hc
  | name _ ih =>
    rw [List.forall_mem_cons]
    exact ⟨hname List.mem_cons_self,
      ih (fun other hother => hnames other (List.mem_cons_of_mem _ hother))
        fun hmem => hname (List.mem_cons_of_mem _ hmem)⟩
  | dot _ ih =>
    rw [List.forall_mem_cons]
    exact ⟨hdot, ih hnames hname⟩

/-! ## The name of a view -/

variable {names' : List Text} {path path' : Text}

theorem Spells.isName (h : Spells names path) : ∀ name ∈ names, IsName name := by
  obtain ⟨hnames, -, -, -, -⟩ := h
  exact hnames

theorem Spells.ne_nil (h : Spells names path) : names ≠ [] := by
  obtain ⟨-, -, dotted, -, -⟩ := h
  exact dotted.ne_nil

/-- **A view is named by the names that lead to it**, with dots between them. -/
theorem nameOf_of_spells (h : Spells names path) : nameOf path = ['.'].intercalate names := by
  obtain ⟨hnames, hextensions, dotted, hlead, joined⟩ := h
  have hparts := parts_of_joined joined (not_isSlash_of_dotted dotted hnames hextensions)
  obtain ⟨before, last, rfl, hfilter⟩ := filter_of_dotted dotted hnames
  have hstem : (last ++ _).takeWhile (· ≠ '.') = last :=
    (Text.span_run (fun c hc => decide_eq_true ((hnames last (by simp)).2 c hc).1)
      fun c hc => by simpa using hextensions.1 c hc).1
  rw [nameOf_eq, parts_append hlead, hparts, hfilter, List.dropLast_concat, List.getLast?_concat,
    Option.map_some, hstem]
  rfl

/-- Names can be told from what they make with dots between them. -/
theorem intercalate_injective (h : Spells names path) (h' : Spells names' path')
    (heq : ['.'].intercalate names = ['.'].intercalate names') : names = names' := by
  have hnodot {names : List Text} (hnames : ∀ name ∈ names, IsName name) :
      ∀ name ∈ names, '.' ∉ name := fun name hname hmem => ((hnames name hname).2 '.' hmem).1 rfl
  rw [← Text.pieces_intercalate h.ne_nil (hnodot h.isName), heq,
    Text.pieces_intercalate h'.ne_nil (hnodot h'.isName)]

/-- **Paths give one name exactly if they lead along the same names**, and this name is made of them. -/
theorem nameOf_eq_iff (h : Spells names path) (h' : Spells names' path') :
    nameOf path = ['.'].intercalate names ∧ (nameOf path = nameOf path' ↔ names = names') := by
  refine ⟨nameOf_of_spells h, ?_⟩
  rw [nameOf_of_spells h, nameOf_of_spells h']
  exact ⟨intercalate_injective h h', congrArg _⟩

/-- Two ways to write a path: with a dot at its beginning and both kinds of slash, and with slashes
all over, a dot in the middle and two extensions. -/
theorem nameOf_eq_iff_slashes :
    let names : List Text := [['a'], ['é', 'b']]
    let path : Text := ['.', '/', 'a', '\\', 'é', 'b', '.', 'h']
    let path' : Text := ['/', 'a', '/', '\\', '.', '/', 'é', 'b', '.', 'x', '.', 'y', '/']
    Spells names path ∧ Spells names path' ∧ nameOf path = ['a', '.', 'é', 'b'] ∧
      nameOf path = nameOf path' := by
  intro names path path'
  have hnames : ∀ name ∈ names, IsName name := by simp [names, IsName, isSlash]
  have slash : ∀ c ∈ ['/'], isSlash c := by simp [isSlash]
  have backslash : ∀ c ∈ ['\\'], isSlash c := by simp [isSlash]
  have both : ∀ c ∈ ['/', '\\'], isSlash c := by simp [isSlash]
  have spells : Spells names path := by
    have hextensions : IsExtensions ['.', 'h'] := by simp [IsExtensions, isSlash]
    have dotted : Dotted ['.', 'h'] names [['.'], ['a'], ['é', 'b', '.', 'h']] :=
      .dot (.name (.last nofun))
    have joined : Joined [['.'], ['a'], ['é', 'b', '.', 'h']] path :=
      @Joined.more ['.'] _ _ _ (List.cons_ne_nil _ _) slash
        (@Joined.more ['a'] _ _ _ (List.cons_ne_nil _ _) backslash
          (@Joined.last ['é', 'b', '.', 'h'] [] nofun))
    exact @Spells.mk names _ [] path _ hnames hextensions dotted nofun joined
  have spells' : Spells names path' := by
    have hextensions : IsExtensions ['.', 'x', '.', 'y'] := by simp [IsExtensions, isSlash]
    have dotted : Dotted ['.', 'x', '.', 'y'] names [['a'], ['.'], ['é', 'b', '.', 'x', '.', 'y']] :=
      .name (.dot (.last nofun))
    have joined : Joined [['a'], ['.'], ['é', 'b', '.', 'x', '.', 'y']] path'.tail :=
      @Joined.more ['a'] _ _ _ (List.cons_ne_nil _ _) both
        (@Joined.more ['.'] _ _ _ (List.cons_ne_nil _ _) slash
          (@Joined.last ['é', 'b', '.', 'x', '.', 'y'] _ slash))
    exact @Spells.mk names _ ['/'] path'.tail _ hnames hextensions dotted slash joined
  obtain ⟨hname, hsame⟩ := nameOf_eq_iff spells spells'
  exact ⟨spells, spells', hname, hsame.mpr rfl⟩

end Stencil.Views
