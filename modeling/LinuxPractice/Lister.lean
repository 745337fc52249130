import LinuxPractice.Framework.Decimal
import Mathlib.Data.List.Basic

namespace LinuxPractice.Lister

open Decimal (ascii)

/-- st_mode & S_IFMT and its values. -/
def S_IFMT : UInt32 := 0o170000
def S_IFSOCK : UInt32 := 0o140000
def S_IFLNK : UInt32 := 0o120000
def S_IFREG : UInt32 := 0o100000
def S_IFBLK : UInt32 := 0o060000
def S_IFDIR : UInt32 := 0o040000
def S_IFCHR : UInt32 := 0o020000
def S_IFIFO : UInt32 := 0o010000

def hasFormat (format mode : UInt32) : Bool := mode &&& S_IFMT == format

def S_ISREG : UInt32 → Bool := hasFormat S_IFREG
def S_ISDIR : UInt32 → Bool := hasFormat S_IFDIR
def S_ISCHR : UInt32 → Bool := hasFormat S_IFCHR
def S_ISBLK : UInt32 → Bool := hasFormat S_IFBLK
def S_ISFIFO : UInt32 → Bool := hasFormat S_IFIFO
def S_ISLNK : UInt32 → Bool := hasFormat S_IFLNK
def S_ISSOCK : UInt32 → Bool := hasFormat S_IFSOCK

/-- The fields of struct stat the lister reads. -/
structure Stat where
  st_mode : UInt32
  st_size : Int
  st_mtime : Int
  deriving DecidableEq

/-- What a name in a directory stands for: a file of its own, or a symbolic link and what it
leads to in the end, if that exists. -/
inductive Node
  | file (st : Stat) (own : S_ISLNK st.st_mode = false)
  | symlink (st : Stat) (own : S_ISLNK st.st_mode = true)
      (target : Option { t : Stat // S_ISLNK t.st_mode = false })

def Node.isSymlink : Node → Bool
  | .file _ _ => false
  | .symlink _ _ _ => true

/-- The status of the entry itself. -/
def Node.lstat : Node → Stat
  | .file st _ => st
  | .symlink st _ _ => st

/-- stat() follows links; none when it fails. -/
def Node.stat : Node → Option Stat
  | .file st _ => some st
  | .symlink _ _ target => target.map Subtype.val

structure Entry where
  name : List UInt8
  node : Node
  name_ne_nil : name ≠ []
  name_length : name.length ≤ 255
  nul_not_mem : 0 ∉ name
  slash_not_mem : 47 ∉ name

/-- The entries of a directory in readdir order; no name occurs twice. -/
structure Directory where
  entries : List Entry
  distinct : (entries.map Entry.name).Nodup

/-- The type of a file, and the text that stands for it in a row. -/
inductive FileType
  | regular
  | directory
  | characterDevice
  | blockDevice
  | fifo
  | symbolicLink
  | socket
  | unknown
  deriving DecidableEq, Repr

def FileType.label : FileType → String
  | .regular => "Type: Regular file"
  | .directory => "Type: Directory"
  | .characterDevice => "Type: Character device"
  | .blockDevice => "Type: Block device"
  | .fifo => "Type: FIFO (named pipe)"
  | .symbolicLink => "Type: Symbolic link"
  | .socket => "Type: Socket"
  | .unknown => "Type: Unknown"

/-- The chain of tests in main(). -/
def fileType (st_mode : UInt32) : FileType :=
  if S_ISREG st_mode then .regular
  else if S_ISDIR st_mode then .directory
  else if S_ISCHR st_mode then .characterDevice
  else if S_ISBLK st_mode then .blockDevice
  else if S_ISFIFO st_mode then .fifo
  else if S_ISLNK st_mode then .symbolicLink
  else if S_ISSOCK st_mode then .socket
  else .unknown

/-- The format bits of each type that has some. -/
def FileType.format : FileType → Option UInt32
  | .regular => some S_IFREG
  | .directory => some S_IFDIR
  | .characterDevice => some S_IFCHR
  | .blockDevice => some S_IFBLK
  | .fifo => some S_IFIFO
  | .symbolicLink => some S_IFLNK
  | .socket => some S_IFSOCK
  | .unknown => none

/-- A type is found by its own test. -/
theorem format_fileType {mode format : UInt32} (h : (fileType mode).format = some format) :
    hasFormat format mode = true := by
  unfold fileType at h
  repeat' split at h
  all_goals first | (cases h; assumption) | cases h

/-- The tests exclude each other, so their order does not matter. -/
theorem fileType_eq_iff {t : FileType} {format : UInt32} (ht : t.format = some format)
    (mode : UInt32) : fileType mode = t ↔ hasFormat format mode = true := by
  constructor
  · intro h
    subst h
    exact format_fileType ht
  · intro h
    rw [hasFormat, beq_iff_eq] at h
    cases t <;> cases ht <;>
      simp only [fileType, S_ISREG, S_ISDIR, S_ISCHR, S_ISBLK, S_ISFIFO, S_ISLNK, S_ISSOCK,
        hasFormat, h] <;> decide

theorem FileType.label_injective : Function.Injective FileType.label := by
  intro t u h
  cases t <;> cases u <;> first | rfl | simp [FileType.label] at h

/-- One row of the listing. -/
structure Row where
  name : List UInt8
  type : FileType
  size : Int
  permissions : UInt32
  modified : List UInt8
  deriving DecidableEq

/-- A piece of what goes to cout: a whole row, the name a row starts with, or a message. -/
inductive Output
  | row (r : Row)
  | started (name : List UInt8)
  | message (text : String)
  deriving DecidableEq

/-- std::left and std::setw(w). -/
def setw (w : Nat) (text : List UInt8) : List UInt8 := text ++ List.replicate (w - text.length) 32

def oct (n : UInt32) : List UInt8 := (Nat.toDigits 8 n.toNat).map Char.toUInt8

def Row.text (r : Row) : List UInt8 :=
  setw 20 r.name ++ setw 25 (ascii r.type.label) ++ ascii "File size:" ++ Decimal.ofInt r.size ++
    setw 20 (ascii "bytes") ++ ascii "\t" ++ ascii "File permissions:" ++
    setw 20 (oct r.permissions) ++ ascii "Last modified:" ++ setw 20 r.modified ++ ascii "\n"

def Output.text : Output → List UInt8
  | .row r => r.text
  | .started name => setw 20 name
  | .message text => text.toUTF8.toList

/-- How a run ends: main() returns, or it does something that has no defined meaning. -/
inductive Outcome
  | returned (code : Int)
  | undefined
  deriving DecidableEq, Repr

/-- What a run prints, the paths it builds, and how it ends. -/
structure Execution where
  cout : List Output
  paths : List (List UInt8)
  outcome : Outcome
  deriving DecidableEq

/-- sizeof(pathname). -/
def pathnameSize : Nat := 256

/-- "./%s" -/
def path (name : List UInt8) : List UInt8 := ascii "./" ++ name

/-- stat() of a path of that form. -/
def stat (dir : Directory) (pathname : List UInt8) : Option Stat :=
  (dir.entries.find? fun e => path e.name == pathname).bind fun e => e.node.stat

section

variable (ctime : Int → List UInt8)

def row (name : List UInt8) (buffer : Stat) : Row where
  name := name
  type := fileType buffer.st_mode
  size := buffer.st_size
  permissions := buffer.st_mode &&& 0o777
  modified := ctime buffer.st_mtime

/-- The loop over readdir(d), with the entries still to come. -/
def readdirLoop (dir : Directory) : List Entry → Execution
  | [] => ⟨[], [], .returned 0⟩
  | entry :: rest =>
    let pathname := path entry.name
    -- sprintf does not stop at the end of pathname
    if pathname.length + 1 ≤ pathnameSize then
      match stat dir pathname with
      | some buffer =>
        let r := readdirLoop dir rest
        ⟨.row (row ctime entry.name buffer) :: r.cout, pathname :: r.paths, r.outcome⟩
      | none => ⟨[.started entry.name, .message "error\n"], [pathname], .returned (-1)⟩
    else ⟨[.started entry.name], [pathname], .undefined⟩

/-- opened is what opendir("./") gives. -/
def main (argv : List (List UInt8)) (opened : Option Directory) : Execution :=
  if argv.length ≠ 2 then ⟨[.message "error\n"], [], .returned (-1)⟩
  else if argv.getD 1 [] ≠ ascii "-l" then ⟨[.message "error2\n"], [], .returned (-1)⟩
  else
    match opened with
    -- the failure is reported and not acted upon: readdir is called with a null pointer
    | none => ⟨[.message "打开文件失败\n"], [], .undefined⟩
    | some d => readdirLoop ctime d d.entries

end

/-- The name and the label of a row. -/
def Output.heading : Output → Option (List UInt8 × String)
  | .row r => some (r.name, r.type.label)
  | _ => none

/-- They are what the printed text of the row starts with. -/
theorem text_of_heading {o : Output} {name : List UInt8} {label : String}
    (h : o.heading = some (name, label)) : setw 20 name ++ setw 25 (ascii label) <+: o.text := by
  cases o with
  | row r =>
    obtain ⟨rfl, rfl⟩ := Prod.mk.inj (Option.some.inj h)
    simp only [Output.text, Row.text, List.append_assoc]
    apply List.prefix_append_right_inj _ |>.mpr
    exact List.prefix_append _ _
  | started name => cases h
  | message text => cases h

/-- The label of the entry itself, whatever it leads to. -/
def Entry.label (e : Entry) : String := (fileType e.node.lstat.st_mode).label

/-- One row for each entry, in order and under its own label, every path the whole one and within
pathname, and a return of 0. -/
structure Lists (entries : List Entry) (r : Execution) : Prop where
  rows : r.cout.map Output.heading = entries.map fun e => some (e.name, e.label)
  whole : r.paths = entries.map fun e => path e.name
  fits : ∀ p ∈ r.paths, p.length + 1 ≤ pathnameSize
  outcome : r.outcome = .returned 0

/-- The entries the lister is up to. -/
def Entry.plain (e : Entry) : Prop := e.node.isSymlink = false ∧ e.name.length ≤ 253

theorem path_injective : Function.Injective path := fun _ _ h => List.append_cancel_left h

theorem path_fits (name : List UInt8) :
    (path name).length + 1 ≤ pathnameSize ↔ name.length ≤ 253 := by
  have hlen : (path name).length = 2 + name.length := List.length_append
  rw [hlen, pathnameSize]
  omega

/-- The path leads back to the entry. -/
theorem stat_path {dir : Directory} {e : Entry} (he : e ∈ dir.entries) :
    stat dir (path e.name) = e.node.stat := by
  have hfind : dir.entries.find? (fun u => path u.name == path e.name) = some e := by
    rw [List.find?_eq_some_iff_append]
    obtain ⟨before, after, hsplit⟩ := List.append_of_mem he
    refine ⟨beq_self_eq_true _, before, after, hsplit, fun u hu => ?_⟩
    have hd := dir.distinct
    rw [hsplit, List.map_append, List.nodup_append] at hd
    have hne := hd.2.2 u.name (List.mem_map_of_mem hu) e.name (by simp)
    simpa using fun h => hne (path_injective h)
  rw [stat, hfind]
  rfl

/-- What stat() reports has the type of the entry itself only if the entry is no link. -/
theorem fileType_stat {n : Node} {buffer : Stat} (h : n.stat = some buffer) :
    fileType buffer.st_mode = fileType n.lstat.st_mode ↔ n.isSymlink = false := by
  cases n with
  | file st own =>
    cases h
    exact iff_of_true rfl rfl
  | symlink st own target =>
    cases target with
    | none => cases h
    | some t =>
      cases h
      refine iff_of_false (fun he => ?_) (fun hf => nomatch hf)
      have hlink : fileType st.st_mode = .symbolicLink := (fileType_eq_iff rfl _).mpr own
      have htarget : S_ISLNK t.1.st_mode = true := (fileType_eq_iff rfl _).mp (he.trans hlink)
      rw [t.property] at htarget
      cases htarget

theorem isSymlink_of_stat {n : Node} (h : n.stat = none) : n.isSymlink = true := by
  cases n with
  | file st own => cases h
  | symlink st own target => rfl

/-- A listing that starts with a row. -/
theorem lists_row_cons {e : Entry} {rest : List Entry} {r : Row} {cout : List Output}
    {paths : List (List UInt8)} {outcome : Outcome} :
    Lists (e :: rest) ⟨.row r :: cout, path e.name :: paths, outcome⟩ ↔
      (r.name = e.name ∧ r.type.label = e.label) ∧ (path e.name).length + 1 ≤ pathnameSize ∧
        Lists rest ⟨cout, paths, outcome⟩ := by
  constructor
  · rintro ⟨hrows, hwhole, hfits, hreturn⟩
    simp only [List.map_cons, List.cons.injEq, Output.heading, Option.some.injEq,
      Prod.mk.injEq, true_and] at hrows hwhole
    rw [List.forall_mem_cons] at hfits
    exact ⟨hrows.1, hfits.1, hrows.2, hwhole, hfits.2, hreturn⟩
  · rintro ⟨⟨hname, hlabel⟩, hfit, h⟩
    refine ⟨?_, ?_, List.forall_mem_cons.mpr ⟨hfit, h.fits⟩, h.outcome⟩
    · rw [List.map_cons, List.map_cons, Output.heading, hname, hlabel, h.rows]
    · have hwhole : paths = rest.map fun e => path e.name := h.whole
      show path e.name :: paths = _
      rw [hwhole, List.map_cons]

/-- One round of the loop. -/
theorem lists_cons (ctime : Int → List UInt8) {dir : Directory} {e : Entry} {rest : List Entry}
    (he : e ∈ dir.entries) :
    Lists (e :: rest) (readdirLoop ctime dir (e :: rest)) ↔
      e.plain ∧ Lists rest (readdirLoop ctime dir rest) := by
  by_cases hlen : e.name.length ≤ 253
  · have hfits := (path_fits e.name).mpr hlen
    simp only [readdirLoop, hfits, if_true, stat_path he]
    cases hstat : e.node.stat with
    | none =>
      -- a link that leads nowhere ends the listing
      have hlink := isSymlink_of_stat hstat
      refine iff_of_false (fun h => nomatch h.outcome) (fun h => ?_)
      rw [Entry.plain, hlink] at h
      exact nomatch h.1.1
    | some buffer =>
      have htype := fileType_stat hstat
      have hlabel : (row ctime e.name buffer).type.label = e.label ↔ e.node.isSymlink = false := by
        rw [← htype]
        exact FileType.label_injective.eq_iff
      rw [lists_row_cons, hlabel]
      constructor
      · rintro ⟨⟨-, hlink⟩, -, hrest⟩
        exact ⟨⟨hlink, hlen⟩, hrest⟩
      · rintro ⟨⟨hlink, -⟩, hrest⟩
        exact ⟨⟨rfl, hlink⟩, hfits, hrest⟩
  · have hfits : ¬ (path e.name).length + 1 ≤ pathnameSize := fun h => hlen ((path_fits _).mp h)
    simp only [readdirLoop, hfits, if_false]
    exact iff_of_false (fun h => nomatch h.outcome) (fun h => hlen h.1.2)

theorem lists_readdirLoop (ctime : Int → List UInt8) {dir : Directory} {entries : List Entry}
    (hsub : ∀ e ∈ entries, e ∈ dir.entries) :
    Lists entries (readdirLoop ctime dir entries) ↔ ∀ e ∈ entries, e.plain := by
  induction entries with
  | nil =>
    refine iff_of_true ?_ (by simp)
    exact ⟨rfl, rfl, fun p hp => (by cases hp), rfl⟩
  | cons e rest ih =>
    rw [List.forall_mem_cons] at hsub
    rw [lists_cons ctime hsub.1, ih hsub.2, List.forall_mem_cons]

/-- ls -l of a directory prints one row for each entry under the entry's own type, builds each
path in full and returns 0 if and only if no entry is a symbolic link and no name is longer than
253 bytes. -/
theorem every_entry_listed_iff (ctime : Int → List UInt8) (program : List UInt8) (dir : Directory) :
    Lists dir.entries (main ctime [program, ascii "-l"] (some dir)) ↔
      ∀ e ∈ dir.entries, e.node.isSymlink = false ∧ e.name.length ≤ 253 :=
  lists_readdirLoop ctime (fun _ he => he)

/-- A directory with itself, a link to it, and a file behind them. -/
def linked : Directory where
  entries :=
    [⟨ascii ".", .file ⟨0o040755, 4096, 0⟩ rfl, by decide, by decide, by decide, by decide⟩,
      ⟨ascii "here", .symlink ⟨0o120777, 1, 0⟩ rfl (some ⟨⟨0o040755, 4096, 0⟩, rfl⟩), by decide,
        by decide, by decide, by decide⟩,
      ⟨ascii "notes", .file ⟨0o100644, 12, 0⟩ rfl, by decide, by decide, by decide, by decide⟩]
  distinct := by decide

/-- The same with a link that leads nowhere. -/
def dangling : Directory where
  entries :=
    [⟨ascii ".", .file ⟨0o040755, 4096, 0⟩ rfl, by decide, by decide, by decide, by decide⟩,
      ⟨ascii "gone", .symlink ⟨0o120777, 1, 0⟩ rfl none, by decide, by decide, by decide,
        by decide⟩,
      ⟨ascii "notes", .file ⟨0o100644, 12, 0⟩ rfl, by decide, by decide, by decide, by decide⟩]
  distinct := by decide

/-- The link is listed as a directory, and the missing target ends the listing with an error. -/
theorem links_not_listed :
    ((main (fun _ => []) [ascii "ls", ascii "-l"] (some linked)).cout.map Output.heading =
        [some (ascii ".", "Type: Directory"), some (ascii "here", "Type: Directory"),
          some (ascii "notes", "Type: Regular file")] ∧
      ¬ Lists linked.entries (main (fun _ => []) [ascii "ls", ascii "-l"] (some linked))) ∧
    ((main (fun _ => []) [ascii "ls", ascii "-l"] (some dangling)).outcome = .returned (-1) ∧
      ¬ Lists dangling.entries (main (fun _ => []) [ascii "ls", ascii "-l"] (some dangling))) := by
  refine ⟨⟨rfl, fun h => ?_⟩, ⟨rfl, fun h => nomatch h.outcome⟩⟩
  exact absurd h.rows (by decide)

end LinuxPractice.Lister
