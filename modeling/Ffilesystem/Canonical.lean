import Ffilesystem.Containment
import Ffilesystem.Library.Route
import Ffilesystem.LexicallyNormal
import Ffilesystem.Links

/-!
# Canonical paths in the `<filesystem>` backend

`canonical` of this backend is `std::filesystem::weakly_canonical` where it need not
be strict: the leading elements of a path that are there are made canonical, and the
others follow them as they are, in normal form.

What `lexically_normal` leaves is known up to the order of its rewrites, so
`WeaklyCanonical` relates a path to every possible result. The result for a path that
can be created is the one for the path when it is there (`resolve_foretold`).
-/

namespace Ffilesystem

open FileTree Lexical

/-- What an iterator over a `std::filesystem::path` gives: the root directory, the
filenames, and an empty one for a separator at the end. -/
def elements (p : Str) : List Str :=
  (if isRooted p then [['/']] else []) ++ Scan.components '/' p ++
    (if p.getLast? = some '/' ∧ Scan.components '/' p ≠ [] then [[]] else [])

/-- The leading elements that are there, and the others. An error that says nothing
about what is there ends the search. -/
def leadingElements (sys : System) (result : Str) : List Str → Except Errno (Str × List Str)
  | [] => .ok (result, [])
  | e :: rest =>
      match sys.stat (stdJoin result e) with
      | .ok _ => leadingElements sys (stdJoin result e) rest
      | .error .loop => .error .loop
      | .error _ => .ok (result, e :: rest)

/-- `r` is a result of `std::filesystem::weakly_canonical`. -/
def WeaklyCanonical (sys : System) (path r : Str) : Prop :=
  match sys.stat path with
  | .ok _ => r = sys.realPath path
  | .error .loop => False
  | .error _ =>
      ∃ found rest, leadingElements sys [] (elements path) = .ok (found, rest) ∧
        (rest.foldl stdJoin (if found = [] then [] else sys.realPath found) = [] ∧ r = [] ∨
          rest.foldl stdJoin (if found = [] then [] else sys.realPath found) ≠ [] ∧
            LexicallyNormal
              (rest.foldl stdJoin (if found = [] then [] else sys.realPath found)) r)

section Spelled

/-- The path is rooted and has just these components. -/
def Spelled (p : Str) (names : List Name) : Prop :=
  isRooted p = true ∧ Scan.components '/' p = names.map Subtype.val

variable {p : Str} {S : List Name}

theorem place_of_spelled (h : Spelled p S) : place p = Place.below S := by
  have hmoves : S.map (moveOf ∘ Subtype.val) = S.map .down :=
    List.map_congr_left fun name _ => moveOf_of_isName name.2
  rw [place, h.1, h.2, List.map_map, hmoves, Place.walk_map_down]
  rfl

/-- The elements of a rooted path, with an empty one behind a last separator. -/
theorem elements_of_spelled (h : Spelled p S) :
    ∃ tail, (tail = [] ∨ tail = [[]] ∧ p.getLast? = some '/' ∧ S ≠ []) ∧
      elements p = ['/'] :: (S.map Subtype.val ++ tail) := by
  rw [elements, h.1, if_pos rfl, h.2]
  split
  · rename_i hlast
    exact ⟨[[]], .inr ⟨rfl, hlast.1, fun hnil => hlast.2 (List.map_eq_nil_iff.mpr hnil)⟩, rfl⟩
  · exact ⟨[], .inl rfl, rfl⟩

theorem normalEnd_cases (h : p ≠ []) :
    normalEnd .posix p = p ∨ normalEnd .posix p ≠ [] ∧ p = normalEnd .posix p ++ ['/'] := by
  obtain ⟨front, c, rfl⟩ := (List.eq_nil_or_concat' p).resolve_left h
  by_cases hslash : c = '/'
  · subst hslash
    by_cases hfront : front = []
    · subst hfront
      exact .inl rfl
    · right
      rw [normalEnd_append_slash hfront]
      exact ⟨hfront, rfl⟩
  · exact .inl (normalEnd_of_getLast h (by simpa using hslash))

theorem spelled_render {m : Place Name} (hroot : m.rooted = true) :
    Spelled (render m) m.names := by
  have hparts : parts m = m.names.map Subtype.val := by
    rw [parts_eq, m.ups_of_rooted hroot]
    rfl
  have hrender : render m = '/' :: ['/'].intercalate (parts m) := if_pos hroot
  refine ⟨by rw [isRooted_render, hroot], ?_⟩
  rw [hrender, Scan.components_cons_self, Scan.components_intercalate (parts_ok m), hparts]

/-- `lexically_normal` takes all dots out of a rooted path. -/
theorem exists_spelled_of_lexicallyNormal {path : Str} (h : LexicallyNormal path p)
    (hroot : isRooted p = true) : ∃ S, Spelled p S := by
  have hend := normalEnd_of_lexicallyNormal h
  have hne := ne_nil_of_isRooted hroot
  rcases normalEnd_cases hne with hsame | ⟨hfront, hslash⟩
  · have hrender : p = render (place path) := hsame.symm.trans hend
    have hplace : (place path).rooted = true := by rw [← isRooted_render, ← hrender, hroot]
    exact ⟨_, hrender ▸ spelled_render hplace⟩
  · rw [hend] at hslash
    have hplace : (place path).rooted = true := by
      rw [← isRooted_render, ← isRooted_append (render_ne_nil _) ['/'], ← hslash, hroot]
    refine ⟨(place path).names, hroot, ?_⟩
    rw [hslash, Scan.components_append_cons, Scan.components_nil, List.append_nil]
    exact (spelled_render hplace).2

/-- The name of an entry as the name of a component. -/
def componentName (name : FileName) : Name := ⟨name.1, name.2.1⟩

theorem render_below (R : List FileName) :
    render (Place.below (R.map componentName)) = absString R := by
  have hparts : parts (Place.below (R.map componentName)) = R.map Subtype.val := by
    rw [parts_eq, Place.below, List.map_map]
    rfl
  rw [render, hparts]
  exact if_pos rfl

theorem spelled_absString (R : List FileName) : Spelled (absString R) (R.map componentName) := by
  rw [← render_below]
  exact spelled_render rfl

theorem getLast?_absString (R : List FileName) :
    (absString R).getLast? ≠ some '/' ∨ R.map componentName = [] := by
  by_cases hR : R = []
  · right
    rw [hR]
    rfl
  · left
    intro hlast
    have hend := endMove_absString hR
    rw [endMove, if_pos hlast] at hend
    cases hend

end Spelled

section Systems

variable {sys : System} {other p : Str}

theorem weaklyCanonical_of_stat {spot : Spot FileName} (h : sys.stat other = .ok spot) :
    WeaklyCanonical sys other p ↔ p = absString spot.path := by
  rw [WeaklyCanonical, h, System.realPath, h]

/-- A rooted result of `weakly_canonical` is without dots. -/
theorem exists_spelled_of_weaklyCanonical (h : WeaklyCanonical sys other p)
    (hroot : isRooted p = true) : ∃ S, Spelled p S := by
  cases hstat : sys.stat other with
  | ok spot =>
      rw [(weaklyCanonical_of_stat hstat).mp h]
      exact ⟨_, spelled_absString spot.path⟩
  | error e =>
      have hnormal : ∃ path, p = [] ∨ LexicallyNormal path p := by
        rw [WeaklyCanonical, hstat] at h
        split at h
        · contradiction
        · contradiction
        · obtain ⟨found, rest, -, ⟨-, hnil⟩ | ⟨-, hnormal⟩⟩ := h
          · exact ⟨[], .inl hnil⟩
          · exact ⟨_, .inr hnormal⟩
      obtain ⟨path, rfl | hnormal⟩ := hnormal
      · cases hroot
      · exact exists_spelled_of_lexicallyNormal hnormal hroot

end Systems

section Leading

variable {sys : System}

/-- A component of a C string. -/
def IsPiece (e : Str) : Prop := e ≠ [] ∧ '/' ∉ e ∧ '\x00' ∉ e

/-- The path names the directory, with as many links left to follow. -/
structure LeadsTo (sys : System) (path : Str) (left : Nat) (D : List FileName) : Prop where
  ne : path ≠ []
  nul : '\x00' ∉ path
  walk : sys.walkFrom path (trail path) = .ok (left, .dir D)

theorem IsPiece.isRooted_eq {e : Str} (he : IsPiece e) : isRooted e = false := by
  obtain ⟨c, rest, rfl⟩ := List.exists_cons_of_ne_nil he.1
  have hc : c ≠ '/' := fun heq => he.2.1 (heq ▸ List.mem_cons_self)
  simpa [isRooted] using hc

/-- What a path names when a component is put behind it. -/
theorem LeadsTo.walkFrom_join {path e : Str} {left : Nat} {D : List FileName}
    (h : LeadsTo sys path left D) (he : IsPiece e) :
    '\x00' ∉ stdJoin path e ∧ stdJoin path e ≠ [] ∧ endMove (stdJoin path e) = [] ∧
      sys.walkFrom (stdJoin path e) (trail (stdJoin path e)) =
        sys.tree.walk left (.dir D) [entryMove e] := by
  have hjoin := stdJoin_of_not_rooted he.isRooted_eq path
  have hend : endMove (stdJoin path e) = [] := by
    rw [hjoin, endMove_append he.1, endMove, if_neg]
    exact fun hlast => he.2.1 (List.mem_of_getLast? hlast)
  have htrail : trail e = [entryMove e] := by
    rw [trail, Scan.components_of_not_mem he.1 he.2.1]
    rfl
  have hcstr := cStr_stdJoin_of_not_rooted h.nul he.isRooted_eq
  have hwalk := walkFrom_joined h.nul h.ne he.isRooted_eq
    (by rw [cStr_of_not_mem he.2.2]; exact he.1) h.walk
  have hname : cStr (stdJoin path e) = stdJoin path e := by
    rw [hjoin]
    rwa [cStr_of_not_mem he.2.2, hjoin] at hcstr
  rw [hname, hend, List.append_nil, cStr_of_not_mem he.2.2, htrail] at hwalk
  refine ⟨hname ▸ nul_not_mem_cStr _, ?_, hend, ?_⟩
  · rw [hjoin]
    exact List.append_ne_nil_of_right_ne_nil _ he.1
  · rw [hwalk, endMove, if_neg (fun hlast => he.2.1 (List.mem_of_getLast? hlast))]
    rfl

theorem LeadsTo.stat_eq {path : Str} {left : Nat} {D : List FileName}
    (h : LeadsTo sys path left D) : sys.stat path = .ok (.dir D) := by
  have hcstr := cStr_of_not_mem h.nul
  apply System.stat_of_walkFrom left
  · rw [hcstr]
    exact h.ne
  · rw [hcstr, System.walkFrom, Tree.walk_append_of_ok h.walk, endMove]
    split
    · exact (Tree.walk_stay_cons left D []).trans (Tree.walk_nil left (.dir D))
    · exact Tree.walk_nil left (.dir D)

/-- The search goes through the elements that are there, as far as a walk does. -/
theorem leadingElements_of_walk {path : Str} {left left' : Nat} {D R : List FileName}
    {stop : Stop FileName}
    (h : LeadsTo sys path left D) {front : List Str} {e : Str} (rest : List Str)
    (hfront : ∀ f ∈ front, IsPiece f) (he : IsPiece e)
    (hwalk : sys.tree.walk left (.dir D) (front.map entryMove) = .ok (left', .dir R))
    (hstop : sys.tree.walk left' (.dir R) [entryMove e] = .error stop) (hloop : stop ≠ .loop) :
    leadingElements sys path (front ++ e :: rest) = .ok (front.foldl stdJoin path, e :: rest) ∧
      sys.stat (front.foldl stdJoin path) = .ok (.dir R) := by
  induction front generalizing path left D with
  | nil =>
      rw [List.map_nil, Tree.walk_nil] at hwalk
      cases hwalk
      obtain ⟨hnul, hne, hend, hjoin⟩ := h.walkFrom_join he
      have hcstr := cStr_of_not_mem hnul
      have hstat : sys.stat (stdJoin path e) = .error (stopErrno stop) := by
        apply System.stat_of_walkFrom_error stop
        · rwa [hcstr]
        · rw [hcstr, hend, List.append_nil, hjoin, hstop]
      refine ⟨?_, h.stat_eq⟩
      rw [List.nil_append, leadingElements, hstat]
      cases stop with
      | missing => rfl
      | notDir => rfl
      | loop => exact absurd rfl hloop
  | cons f front ih =>
      have hf := hfront f List.mem_cons_self
      rw [List.map_cons, ← List.singleton_append] at hwalk
      obtain ⟨left₁, spot, hfirst, hrest⟩ := Tree.exists_walk_of_append hwalk
      obtain ⟨D₁, rfl⟩ : ∃ D₁, spot = .dir D₁ := by
        cases spot with
        | dir D₁ => exact ⟨D₁, rfl⟩
        | file R' name ino =>
            -- nothing leads on from a file to a directory
            cases hmoves : front.map entryMove with
            | nil =>
                rw [hmoves, Tree.walk_nil] at hrest
                cases hrest
            | cons move moves =>
                rw [hmoves, Tree.walk_file_cons] at hrest
                cases hrest
      obtain ⟨hnul, hne, -, hjoin⟩ := h.walkFrom_join hf
      have hnext : LeadsTo sys (stdJoin path f) left₁ D₁ := ⟨hne, hnul, hjoin.trans hfirst⟩
      rw [List.cons_append, leadingElements, hnext.stat_eq, List.foldl_cons]
      exact ih hnext (fun g hg => hfront g (List.mem_cons_of_mem _ hg)) hrest

/-- The last separator of a path does not change its meaning. -/
theorem place_normalEnd (p : Str) : place (normalEnd .posix p) = place p := by
  by_cases hp : p = []
  · subst hp
    rfl
  · rcases normalEnd_cases hp with hsame | ⟨hne, hslash⟩
    · rw [hsame]
    · conv_rhs => rw [hslash]
      rw [place_append_slash hne, movesOf_nil]
      rfl

theorem normal_eq_of_isLexicallyNormal {path p : Str} (h : LexicallyNormal path p) :
    normal .posix p = normal .posix path := by
  rw [normal_eq_normal_iff, ← place_normalEnd p, normalEnd_of_lexicallyNormal h, place_render]

theorem isRooted_foldl_stdJoin (pieces : List Str) {p : Str} (h : isRooted p = true) :
    isRooted (pieces.foldl stdJoin p) = true := by
  induction pieces generalizing p with
  | nil => exact h
  | cons piece pieces ih =>
      apply ih
      rw [isRooted_stdJoin, h, Bool.true_or]

theorem leadsTo_root (sys : System) : LeadsTo sys ['/'] sys.maxLinks [] := by
  refine ⟨by decide, by decide, ?_⟩
  rw [trail_cons_slash, trail_nil, System.walkFrom]
  exact Tree.walk_nil _ _

/-- A path on whose way a walk stops is not there itself. -/
theorem stat_of_walk_stop {q : Str} (hnul : '\x00' ∉ q) (hroot : isRooted q = true)
    {front rest : List Str} {e : Str} (hcut : Scan.components '/' q = front ++ e :: rest)
    {left : Nat} {R : List FileName} {stop : Stop FileName}
    (hwalk : sys.tree.walk sys.maxLinks (.dir []) (front.map entryMove) = .ok (left, .dir R))
    (hstop : sys.tree.walk left (.dir R) [entryMove e] = .error stop) (hloop : stop ≠ .loop) :
    ∃ err, sys.stat q = .error err ∧ err ≠ .loop := by
  have hcstr := cStr_of_not_mem hnul
  refine ⟨stopErrno (stop.before (rest.map entryMove ++ endMove q)), ?_, ?_⟩
  · have htrail : trail q ++ endMove q = front.map entryMove ++
        ([entryMove e] ++ (rest.map entryMove ++ endMove q)) := by
      rw [trail, hcut, List.map_append, List.map_cons, List.append_assoc]
      rfl
    apply System.stat_of_walkFrom_error
    · rw [hcstr]
      exact ne_nil_of_isRooted hroot
    · rw [hcstr, htrail, System.walkFrom, System.origin, hroot, if_pos rfl,
        Tree.walk_append_of_ok hwalk, Tree.walk_append, hstop]
  · cases stop with
    | missing R name moves => exact Errno.noConfusion
    | notDir => exact Errno.noConfusion
    | loop => exact absurd rfl hloop

/-- What the search finds of a rooted path. Behind the components there is an empty
element if the path ends with a slash. -/
theorem leadingElements_of_rooted {q : Str} (hnul : '\x00' ∉ q) (hroot : isRooted q = true)
    {front rest : List Str} {e : Str} (hcut : Scan.components '/' q = front ++ e :: rest)
    {left : Nat} {R : List FileName} {stop : Stop FileName}
    (hwalk : sys.tree.walk sys.maxLinks (.dir []) (front.map entryMove) = .ok (left, .dir R))
    (hstop : sys.tree.walk left (.dir R) [entryMove e] = .error stop) (hloop : stop ≠ .loop) :
    ∃ tail, (tail = [] ∨ tail = [[]]) ∧
      leadingElements sys [] (elements q) =
        .ok (front.foldl stdJoin ['/'], e :: (rest ++ tail)) ∧
      sys.stat (front.foldl stdJoin ['/']) = .ok (.dir R) := by
  have hpiece : ∀ f ∈ front ++ e :: rest, IsPiece f := by
    intro f hf
    have hmem := hcut ▸ hf
    obtain ⟨hne, hslash⟩ := Scan.of_mem_components hmem
    exact ⟨hne, hslash, fun hmem' => hnul (Scan.mem_of_mem_components hmem hmem')⟩
  obtain ⟨tail, htail, helements⟩ : ∃ tail, (tail = [] ∨ tail = [[]]) ∧
      elements q = ['/'] :: (front ++ e :: (rest ++ tail)) := by
    rw [elements, hroot, if_pos rfl, hcut]
    split
    · exact ⟨[[]], .inr rfl, by simp⟩
    · exact ⟨[], .inl rfl, by simp⟩
  obtain ⟨hleading, hfound⟩ := leadingElements_of_walk (leadsTo_root sys) (rest ++ tail)
    (fun f hf => hpiece f (List.mem_append_left _ hf))
    (hpiece e (List.mem_append_right _ List.mem_cons_self)) hwalk hstop hloop
  refine ⟨tail, htail, ?_, hfound⟩
  have hslash : stdJoin [] ['/'] = ['/'] := rfl
  rw [helements, leadingElements, hslash, (leadsTo_root sys).stat_eq]
  exact hleading

/-- An empty element at the end only adds a separator. -/
theorem place_foldl_stdJoin_append {tail : List Str} (h : tail = [] ∨ tail = [[]])
    (others : List Str) (p : Str) :
    place ((others ++ tail).foldl stdJoin p) = place (others.foldl stdJoin p) := by
  rcases h with rfl | rfl
  · rw [List.append_nil]
  · rw [List.foldl_append, List.foldl_cons, List.foldl_nil, place_stdJoin, movesOf_nil,
      if_neg (by decide)]
    rfl

/-- The part of a rooted path that is there is replaced by its canonical path, and the
other components follow it. -/
theorem normal_weaklyCanonical {q p : Str} (hnul : '\x00' ∉ q) (hroot : isRooted q = true)
    {front rest : List Str} {e : Str} (hcut : Scan.components '/' q = front ++ e :: rest)
    {left : Nat} {R : List FileName} {stop : Stop FileName}
    (hwalk : sys.tree.walk sys.maxLinks (.dir []) (front.map entryMove) = .ok (left, .dir R))
    (hstop : sys.tree.walk left (.dir R) [entryMove e] = .error stop) (hloop : stop ≠ .loop)
    (h : WeaklyCanonical sys q p) :
    normal .posix p = normal .posix ((e :: rest).foldl stdJoin (absString R)) := by
  obtain ⟨err, herr, hne⟩ := stat_of_walk_stop hnul hroot hcut hwalk hstop hloop
  obtain ⟨tail, htail, hsearch, hfound⟩ :=
    leadingElements_of_rooted hnul hroot hcut hwalk hstop hloop
  have hne' : front.foldl stdJoin ['/'] ≠ [] := by
    intro hnil
    rw [hnil] at hfound
    exact (System.stat_eq_ok hfound).1 rfl
  have hreal : sys.realPath (front.foldl stdJoin ['/']) = absString R := by
    rw [System.realPath, hfound]
    rfl
  rw [WeaklyCanonical, herr] at h
  split at h
  · contradiction
  · rename_i heq
    cases heq
    exact absurd rfl hne
  · obtain ⟨found, others, hfind, hp⟩ := h
    rw [hsearch] at hfind
    cases hfind
    rw [if_neg hne', hreal] at hp
    rcases hp with ⟨hnil, -⟩ | ⟨-, hnormal⟩
    · have hrooted := isRooted_foldl_stdJoin (e :: (rest ++ tail)) (p := absString R) rfl
      rw [hnil] at hrooted
      cases hrooted
    · rw [normal_eq_of_isLexicallyNormal hnormal, normal_eq_normal_iff, ← List.cons_append]
      exact place_foldl_stdJoin_append htail _ _

end Leading

section Foretold

variable {sys sys' : System} {path p : Str} {R : List FileName} {name : FileName}

theorem isPiece_name (name : FileName) : IsPiece name.1 :=
  ⟨name.2.1.1, name.2.1.2.2.2, name.2.2⟩

/-- A name behind the canonical path of a directory. -/
theorem normal_join_name (R : List FileName) (name : FileName) :
    normal .posix (stdJoin (absString R) name.1) = absString (R ++ [name]) := by
  have hpiece := isPiece_name name
  have hmoves : movesOf name.1 = [componentName name].map .down := by
    rw [movesOf, Scan.components_of_not_mem hpiece.1 hpiece.2.1, List.map_singleton,
      moveOf_of_isName name.2.1]
    rfl
  have hwalk := Place.walk_map_down (Place.below (R.map componentName)) [componentName name]
  rw [normal_eq_render, place_stdJoin, hpiece.isRooted_eq, if_neg Bool.false_ne_true,
    place_of_spelled (spelled_absString R), hmoves, hwalk, ← render_below, List.map_append]
  rfl

/-- The components of a located path, and the walk to the directory of the last. -/
theorem components_of_locate (hnul : '\x00' ∉ path)
    (hlocate : sys.locate path = .ok (R, .down name)) :
    ∃ front left, Scan.components '/' path = front ++ [name.1] ∧
      sys.walkFrom path (front.map entryMove) = .ok (left, .dir R) := by
  have htrail := System.trail_of_locate hlocate
  obtain ⟨-, -, left, hwalk⟩ := System.locate_eq_ok hlocate
  rw [cStr_of_not_mem hnul] at htrail hwalk
  obtain ⟨front, back, hcut, hfront, hback⟩ := List.map_eq_append_iff.mp htrail
  obtain ⟨c, rfl, hc⟩ := List.map_eq_singleton_iff.mp hback
  refine ⟨front, left, ?_, ?_⟩
  · rw [hcut]
    rw [entryMove] at hc
    split at hc
    · cases hc
      rfl
    · split at hc
      · cases hc
      · cases hc
  · rw [hfront]
    exact hwalk

/-- What the absolute path of a located name is made of. -/
theorem components_absolute (hnul : '\x00' ∉ path)
    (hlocate : sys.locate path = .ok (R, .down name)) :
    '\x00' ∉ stdJoin sys.getCwd path ∧ isRooted (stdJoin sys.getCwd path) = true ∧
      ∃ front left, Scan.components '/' (stdJoin sys.getCwd path) = front ++ [name.1] ∧
        sys.tree.walk sys.maxLinks (.dir []) (front.map entryMove) = .ok (left, .dir R) := by
  obtain ⟨front, left, hcut, hwalk⟩ := components_of_locate hnul hlocate
  cases hroot : isRooted path with
  | true =>
      rw [stdJoin_of_rooted hroot]
      refine ⟨hnul, hroot, front, left, hcut, ?_⟩
      rwa [System.walkFrom, System.origin, hroot, if_pos rfl] at hwalk
  | false =>
      have hcwd : sys.getCwd ≠ [] := List.cons_ne_nil _ _
      have hsep : '\x00' ∉ joinSep sys.getCwd := by
        rw [joinSep]
        split <;> decide
      rw [System.walkFrom, System.origin, hroot, if_neg Bool.false_ne_true] at hwalk
      refine ⟨?_, ?_, Scan.components '/' sys.getCwd ++ front, left, ?_, ?_⟩
      · rw [stdJoin_of_not_rooted hroot]
        simp only [List.mem_append, not_or]
        exact ⟨⟨nul_not_mem_absString sys.cwd, hsep⟩, hnul⟩
      · rw [isRooted_stdJoin]
        rfl
      · rw [stdJoin_of_not_rooted hroot, components_append_joinSep _ hcwd, hcut,
          List.append_assoc]
      · have htrail : (Scan.components '/' sys.getCwd).map entryMove = sys.cwd.map .down :=
          trail_absString sys.cwd
        rw [List.map_append, htrail]
        exact (Tree.walk_names sys.cwd_isDir sys.maxLinks _).trans hwalk

/-- `resolve` of the `<filesystem>` backend foretells where a path will be: its result
for a name that is not there yet is, but for a separator at the end, the canonical
path of what a larger system has there, unless that is a link. -/
theorem resolve_foretold (hnul : '\x00' ∉ path) (hlocate : sys.locate path = .ok (R, .down name))
    (hnone : sys.tree.lookup R name = none)
    (h : WeaklyCanonical sys (stdJoin sys.getCwd path) p) :
    normal .posix p = absString (R ++ [name]) ∧
      ∀ sys' node, sys.Grows sys' → ⟨R, name, node⟩ ∈ sys'.tree.entries →
        (∀ target, node ≠ .link target) → endMove path = [] →
        ∀ strict, canonical sys' path strict = normal .posix p := by
  obtain ⟨hnul', hroot, front, left, hcut, hwalk⟩ := components_absolute hnul hlocate
  have hmove : entryMove name.1 = .down name := entryMove_name name
  have hstop : sys.tree.walk left (.dir R) [entryMove name.1] = .error (.missing R name []) := by
    rw [hmove, Tree.walk_down_of_none hnone]
  have hresult : normal .posix p = absString (R ++ [name]) := by
    rw [normal_weaklyCanonical hnul' hroot hcut hwalk hstop (by simp) h]
    exact normal_join_name R name
  refine ⟨hresult, fun sys' node hgrows hmem hlink hend strict => ?_⟩
  have hlocate' := hgrows.locate hlocate
  have hfind : sys'.tree.lookup R name = some ⟨R, name, node⟩ := Tree.lookup_self hmem
  have hend' : endMove (cStr path) = [] := by rwa [cStr_of_not_mem hnul]
  rw [hresult]
  cases node with
  | dir =>
      have hlast : ∀ b, sys'.tree.walk b (.dir R) [.down name] = .ok (b, .dir (R ++ [name])) := by
        intro b
        rw [Tree.walk_down_of_dir hfind rfl, Tree.walk_nil]
        rfl
      exact canonical_of_stat (stat_of_locate hend' hlocate' hlast) strict
  | file ino =>
      have hlast : ∀ b, sys'.tree.walk b (.dir R) [.down name] = .ok (b, .file R name ino) := by
        intro b
        rw [Tree.walk_down_of_file hfind rfl, Tree.walk_nil]
      exact canonical_of_stat (stat_of_locate hend' hlocate' hlast) strict
  | link target => exact absurd rfl (hlink target)

theorem isFileName_m : IsFileName ['m'] := by decide

/-- The name `m` behind the link is foretold below the directory. -/
theorem resolve_foretold_linkedDir :
    ∃ p, WeaklyCanonical linkedDir (stdJoin linkedDir.getCwd "l/m".toList) p ∧
      normal .posix p = "/d/m".toList := by
  obtain ⟨p, hp⟩ := exists_lexicallyNormal "/d/m".toList
  have hstat : linkedDir.stat "/l/m".toList = .error .noent := by decide +kernel
  have hleading : leadingElements linkedDir [] (elements "/l/m".toList) =
      .ok ("/l".toList, ["m".toList]) := by decide +kernel
  have hreal : linkedDir.realPath "/l".toList = "/d".toList := by decide +kernel
  have hweak : WeaklyCanonical linkedDir "/l/m".toList p := by
    rw [WeaklyCanonical, hstat]
    refine ⟨_, _, hleading, .inr ?_⟩
    rw [if_neg (by decide), hreal]
    exact ⟨by decide, hp⟩
  have hlocate : linkedDir.locate "l/m".toList =
      .ok ([⟨['d'], isFileName_d⟩], .down ⟨['m'], isFileName_m⟩) := by decide +kernel
  exact ⟨p, hweak, (resolve_foretold (by decide) hlocate (by decide +kernel) hweak).1⟩

end Foretold

end Ffilesystem
