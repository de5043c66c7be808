import TinyWebserver.Http.ResponseText
import TinyWebserver.Lib.Paths

/-!
# Where the files of a response are

The target of a request is written behind the resource directory and that is the name of a file:
`accepted_inside_iff` says for which targets the name leads into the resource directory. Nothing but the
text of the target decides it, since `ParsePath_` and `ParsePost_` only put names of pages in its place.
-/

open Paths

/-- The byte `'/'`. -/
def slash : Byte := 47

/-- The byte `'.'`. -/
def dot : Byte := 46

namespace HttpRequest

variable {verify : Verify} {r r' : HttpRequest} {line xs rest : List Byte} {ok : Bool}

/-! ### The path of an accepted request -/

/-- The target of the request line that the bytes begin with. -/
def target (xs : List Byte) : List Byte :=
  ((firstLine xs).dropWhile (· ≠ space)).tail.takeWhile (· ≠ space)

/-- The path stays, or a page with the answer takes the place of a page with a form. -/
def Rewritten (path path' : List Byte) : Prop :=
  path' = path ∨ path ∈ [ascii "/login.html", ascii "/register.html"] ∧
    path' ∈ [ascii "/welcome.html", ascii "/error.html"]

theorem Rewritten.trans {path path' path'' : List Byte} (h : Rewritten path path')
    (h' : Rewritten path' path'') :
  Rewritten path path''
  := by
  rcases h with rfl | ⟨hform, hanswer⟩
  · apply h'
  · rcases h' with rfl | ⟨hform', -⟩
    · exact Or.inr ⟨hform, hanswer⟩
    · have hdisjoint : ∀ page ∈ [ascii "/welcome.html", ascii "/error.html"],
          page ∉ [ascii "/login.html", ascii "/register.html"] := by decide
      exact absurd hform' (hdisjoint _ hanswer)

theorem mem_of_defaultHtmlTag {path : List Byte} {tag : ℕ} (h : defaultHtmlTag path = some tag) :
  path ∈ [ascii "/login.html", ascii "/register.html"]
  := by
  unfold defaultHtmlTag at h
  split at h
  · simp [*]
  · split at h
    · simp [*]
    · cases h

theorem parseFromUrlencoded_path (h : r.parseFromUrlencoded = some r') :
  r'.path = r.path
  := by
  unfold parseFromUrlencoded at h
  split at h
  · obtain rfl := Option.some.inj h
    rfl
  · obtain ⟨s, -, h⟩ := Option.bind_eq_some_iff.mp h
    split at h
    · obtain rfl := Option.some.inj h
      rfl
    · cases h

/-- A form can put a page with the answer in place of the page. -/
theorem parsePost_path (h : parsePost verify r = some r') :
  Rewritten r.path r'.path
  := by
  unfold parsePost at h
  split at h
  · dsimp only at h
    split at h
    · obtain ⟨r₁, hform, h⟩ := Option.bind_eq_some_iff.mp h
      have hpath := parseFromUrlencoded_path hform
      cases htag : defaultHtmlTag r₁.path with
      | none =>
          rw [htag] at h
          obtain rfl := Option.some.inj h
          exact Or.inl hpath
      | some tag =>
          rw [htag] at h
          obtain rfl := Option.some.inj h
          refine Or.inr ⟨hpath ▸ mem_of_defaultHtmlTag htag, ?_⟩
          dsimp only
          split <;> simp
    · obtain rfl := Option.some.inj h
      exact Or.inl rfl
  · obtain rfl := Option.some.inj h
    exact Or.inl rfl

/-- Behind the request line, a line leaves the path or answers a form. -/
theorem parseLine_path (hr : r.state ≠ .requestLine) {n : ℕ}
    (h : parseLine verify r line n = some (some r')) :
  Rewritten r.path r'.path
  := by
  unfold parseLine at h
  split at h
  · rename_i hstate
    exact absurd hstate hr
  · obtain rfl := Option.some.inj (Option.some.inj h)
    left
    rcases parseHeader_spec r line with ⟨k, -, heq⟩ | ⟨-, heq⟩ <;> rw [heq] <;> split <;> rfl
  · obtain ⟨r₁, hbody, heq⟩ := Option.map_eq_some_iff.mp h
    obtain rfl := Option.some.inj heq
    obtain ⟨r₂, hpost, heq⟩ := Option.bind_eq_some_iff.mp hbody
    obtain rfl := Option.some.inj heq
    have hpath := parsePost_path hpost
    apply hpath
  · obtain rfl := Option.some.inj (Option.some.inj h)
    exact Or.inl rfl

theorem parseBytes_path (hr : r.state ≠ .requestLine)
    (h : parseBytes verify r xs = some (ok, r', rest)) :
  Rewritten r.path r'.path
  := by
  induction r, xs using parseBytes.induct verify with
  | case1 r xs hend =>
      rw [parseBytes, dif_pos hend] at h
      cases h
      exact Or.inl rfl
  | case2 r xs hend hline =>
      rw [parseBytes, dif_neg hend, hline] at h
      cases h
  | case3 r xs hend hline =>
      rw [parseBytes, dif_neg hend, hline] at h
      cases h
      exact Or.inl rfl
  | case4 r xs hend r₁ hline hlast =>
      rw [parseBytes, dif_neg hend, hline] at h
      simp only [if_pos hlast] at h
      cases h
      apply parseLine_path hr hline
  | case5 r xs hend r₁ hline hlast ih =>
      rw [parseBytes, dif_neg hend, hline] at h
      simp only [if_neg hlast] at h
      apply (parseLine_path hr hline).trans (ih (parseLine_state hline) h)

/-- The target of a request line is its second part. -/
theorem target_eq {m p v : List Byte} (hm : space ∉ m) (hp : space ∉ p)
    (h : firstLine xs = m ++ space :: (p ++ space :: v)) :
  target xs = p
  := by
  rw [target, h, List.dropWhile_append_of_pos (all_ne_of_notMem hm),
    List.dropWhile_cons_of_neg (by simp), List.tail_cons,
    List.takeWhile_append_of_pos (all_ne_of_notMem hp), List.takeWhile_cons_of_neg (by simp),
    List.append_nil]

/-- The path of an accepted request is its target, the name of a page for it or the answer to a form. -/
theorem path_of_accepted {b b' : Buffer} (hInv : b.Inv)
    (h : parse verify init b = some (true, r', b')) :
  Rewritten (parsePath { init with path := target b.contents }).path r'.path
  := by
  by_cases hempty : b.readableBytes = 0
  · rw [parse_of_empty verify init hempty] at h
    cases h
  · have hne : b.contents ≠ [] := by
      rw [← List.length_pos_iff, hInv.length_contents]
      omega
    have heq := (parse_eq verify init hInv hne).1
    rw [h, Option.map_some, outcome, parseBytes, dif_neg (by simp [hne, init]), parseLine] at heq
    simp only [init] at heq
    rw [← init] at heq
    cases hline : init.parseRequestLine (firstLine b.contents) with
    | none =>
        rw [hline] at heq
        cases heq
    | some r₁ =>
        rw [hline] at heq
        obtain ⟨m, p, v, hfirst, hm, hp, -, rfl⟩ := parseRequestLine_cases hline
        rw [target_eq hm hp hfirst]
        simp only [Option.map_some] at heq
        split at heq
        · obtain ⟨-, hr'⟩ := Prod.mk.inj (Option.some.inj heq)
          rw [(Prod.mk.inj hr').1]
          exact Or.inl rfl
        · apply parseBytes_path (by simp [parsePath]) heq.symm

end HttpRequest

namespace HttpResponse

variable {fs fs' : FileSystem} {r : HttpResponse}

/-! ### The names of the files -/

/-- The response in `MakeResponse` when the code is chosen. -/
def decided (fs : FileSystem) (r : HttpResponse) : HttpResponse :=
  { r with mmFileStat := (fs.stat r.fileName).getD r.mmFileStat, code := r.chosen fs }

/-- The names that `MakeResponse` uses: one for its own `stat`, and one for the `stat` in `ErrorHtml_` and
for `open` in `AddContent_`. -/
def fileNames (fs : FileSystem) (r : HttpResponse) : List (List Byte) :=
  [r.fileName, (errorHtml fs (r.decided fs)).fileName]

/-- Two file systems give the same answers for a name. -/
structure SameAnswers (fs fs' : FileSystem) (name : List Byte) : Prop where
  stat : fs.stat name = fs'.stat name
  restat : fs.restat name = fs'.restat name
  opens : fs.opens name = fs'.opens name
  mmap : fs.mmap name = fs'.mmap name

theorem errorHtml_congr (h : SameAnswers fs fs' (errorHtml fs r).fileName) :
  errorHtml fs r = errorHtml fs' r
  := by
  unfold errorHtml at h ⊢
  cases hpath : codePath.lookup r.code with
  | none => rfl
  | some path =>
      rw [hpath] at h
      have hrestat : fs.restat ({ r with path := path } : HttpResponse).fileName
          = fs'.restat ({ r with path := path } : HttpResponse).fileName := h.restat
      simp only [hrestat]

/-- `AddContent_` depends on the answers for the name of its file only. -/
theorem addContent_congr (h : SameAnswers fs fs' r.fileName) (buff : Buffer) :
  r.addContent fs buff = r.addContent fs' buff
  := by
  unfold addContent
  rw [h.opens, h.mmap]

/-- `MakeResponse` uses no other names. -/
theorem makeResponse_congr (h : ∀ name ∈ r.fileNames fs, SameAnswers fs fs' name) (buff : Buffer) :
  r.makeResponse fs buff = r.makeResponse fs' buff
  := by
  have hstat := (h r.fileName (by simp [fileNames])).stat
  have hsecond := h (errorHtml fs (r.decided fs)).fileName (by simp [fileNames])
  have herror := errorHtml_congr hsecond
  have hdecided : r.decided fs = r.decided fs' := by rw [decided, decided, chosen, chosen, hstat]
  have hmake : ∀ fs₁, r.makeResponse fs₁ buff = (errorHtml fs₁ (r.decided fs₁)).addStateLine buff >>=
      fun p => p.1.addHeader p.2 >>= fun buff => p.1.addContent fs₁ buff := fun _ => rfl
  rw [hmake, hmake, ← hdecided, ← herror]
  generalize errorHtml fs (r.decided fs) = r₁ at hsecond
  rw [addStateLine_text]
  cases buff.appendAll [lineText (statusOf r₁.code)] with
  | none => rfl
  | some buff₁ =>
      have hcontent := addContent_congr (r := { r₁ with code := (statusOf r₁.code).1 }) hsecond
      simp only [Option.bind_eq_bind, Option.bind_some, hcontent]

theorem fileName_eq (h : 0 ∉ r.srcDir) :
  r.fileName = r.srcDir ++ r.path.takeWhile (· ≠ 0)
  := List.takeWhile_append_of_pos (all_ne_of_notMem h)

/-- The paths that the source has in its tables. -/
def pages : List (List Byte) :=
  [ascii "/", ascii "/index.html", ascii "/welcome.html", ascii "/error.html", ascii "/login.html",
    ascii "/register.html"] ++
    HttpRequest.defaultHtml ++ HttpRequest.defaultHtml.map (· ++ ascii ".html") ++
    codePath.map Prod.snd

/-- All of them lead into the resource directory. -/
theorem inside_page {page srcDir : List Byte} (h : page ∈ pages) (hdir : srcDir ≠ [])
    (cwd : List (List Byte)) :
  Inside slash dot cwd srcDir (srcDir ++ page.takeWhile (· ≠ 0))
  := by
  have hall : ∀ page ∈ pages, (page.takeWhile (· ≠ 0)).head? = some slash ∧
      (net (moves slash dot (page.takeWhile (· ≠ 0)).tail)).ups = 0 := by decide
  obtain ⟨hhead, hups⟩ := hall page h
  rw [← List.cons_head?_tail hhead]
  apply inside_slash hdir hups

theorem errorHtml_path (fs : FileSystem) (r : HttpResponse) :
  (errorHtml fs r).srcDir = r.srcDir ∧
    ((errorHtml fs r).path = r.path ∨ (errorHtml fs r).path ∈ codePath.map Prod.snd)
  := by
  unfold errorHtml
  cases hlookup : codePath.lookup r.code with
  | none => exact ⟨rfl, Or.inl rfl⟩
  | some path =>
      obtain ⟨l₁, l₂, hlist, -⟩ := List.lookup_eq_some_iff.mp hlookup
      refine ⟨rfl, Or.inr ?_⟩
      simp [hlist]

/-- The page of an error is in the resource directory, so that the first name settles it. -/
theorem fileNames_inside_iff (hdir : r.srcDir ≠ []) (hnul : 0 ∉ r.srcDir) (fs : FileSystem)
    (cwd : List (List Byte)) :
  (∀ name ∈ r.fileNames fs, Inside slash dot cwd r.srcDir name) ↔
    Inside slash dot cwd r.srcDir (r.srcDir ++ r.path.takeWhile (· ≠ 0))
  := by
  obtain ⟨hsame, hpath⟩ := errorHtml_path fs (r.decided fs)
  have hnul₁ : 0 ∉ (errorHtml fs (r.decided fs)).srcDir := by rw [hsame]; exact hnul
  simp only [fileNames, List.forall_mem_cons, fileName_eq hnul, fileName_eq hnul₁, hsame]
  constructor
  · exact fun h => h.1
  · intro h
    refine ⟨h, ?_, by simp⟩
    rcases hpath with hpath | hpath
    · rw [hpath]
      apply h
    · apply inside_page _ hdir
      rw [pages, List.mem_append]
      exact Or.inr hpath

end HttpResponse

namespace HttpConn

open HttpRequest HttpResponse

theorem mem_pages_of_rewritten {path path' : List Byte} (h : Rewritten path path') :
  path' = path ∨ path ∈ pages ∧ path' ∈ pages
  := by
  have hforms : ∀ page ∈ [ascii "/login.html", ascii "/register.html"], page ∈ pages := by
    decide
  have hanswers : ∀ page ∈ [ascii "/welcome.html", ascii "/error.html"], page ∈ pages := by
    decide
  rcases h with h | ⟨hform, hanswer⟩
  · exact Or.inl h
  · exact Or.inr ⟨hforms _ hform, hanswers _ hanswer⟩

theorem mem_pages_of_parsePath (r : HttpRequest) :
  (parsePath r).path = r.path ∨ r.path ∈ pages ∧ (parsePath r).path ∈ pages
  := by
  unfold parsePath
  dsimp only
  split
  · rename_i hpath
    right
    rw [hpath]
    exact ⟨by decide, by decide⟩
  · split
    · rename_i hpath
      right
      have hall : ∀ page ∈ defaultHtml, page ∈ pages ∧ page ++ ascii ".html" ∈ pages := by
        decide
      apply hall _ hpath
    · exact Or.inl rfl

/-- Paths that are put in place of others do not change where the file is. -/
theorem inside_congr_of_pages {path path' srcDir : List Byte} (hdir : srcDir ≠ [])
    (h : path' = path ∨ path ∈ pages ∧ path' ∈ pages) (cwd : List (List Byte)) :
  Inside slash dot cwd srcDir (srcDir ++ path'.takeWhile (· ≠ 0)) ↔
    Inside slash dot cwd srcDir (srcDir ++ path.takeWhile (· ≠ 0))
  := by
  rcases h with rfl | ⟨hpage, hpage'⟩
  · rfl
  · constructor
    · exact fun _ => inside_page hpage hdir cwd
    · exact fun _ => inside_page hpage' hdir cwd

/-- The response for an accepted request depends on the answers for the names of its files only, and these
lead into the resource directory exactly if the target, behind the last component of that directory,
returns to it. The resource directory is a `const char *` and has no zero byte. -/
theorem accepted_inside_iff {verify : Verify} {c : HttpConn} {request : HttpRequest} {b : Buffer}
    {srcDir : List Byte} {r : HttpResponse} (hInv : c.readBuff.Inv)
    (hparse : HttpRequest.init.parse verify c.readBuff = some (true, request, b))
    (hstart : startResponse srcDir true request = some r) (hnul : 0 ∉ srcDir) (fs : FileSystem)
    (cwd : List (List Byte)) :
  (∀ fs', (∀ name ∈ r.fileNames fs, SameAnswers fs fs' name) →
      ∀ buff, r.makeResponse fs buff = r.makeResponse fs' buff) ∧
    ((∀ name ∈ r.fileNames fs, Inside slash dot cwd srcDir name) ↔
      Returns slash dot cwd srcDir ((target c.readBuff.contents).takeWhile (· ≠ 0)))
  := by
  refine ⟨fun fs' hsame buff => makeResponse_congr hsame buff, ?_⟩
  rw [startResponse] at hstart
  obtain ⟨hdir, rfl⟩ := init_spec hstart
  have hrewritten := mem_pages_of_rewritten (path_of_accepted hInv hparse)
  have hparsed := mem_pages_of_parsePath
    { HttpRequest.init with path := target c.readBuff.contents }
  rw [← inside_append_iff hdir, ← inside_congr_of_pages hdir hparsed,
    ← inside_congr_of_pages hdir hrewritten]
  apply fileNames_inside_iff hdir hnul

/-- A connection that has read a request for a target. -/
def hasReadTarget (target : List Byte) : HttpConn :=
  let bytes := ascii "GET " ++ target ++ ascii " HTTP/1.1" ++ crlf ++ crlf
  { new with readBuff := ⟨bytes, 0, bytes.length⟩ }

/-- What `parse` accepts and gives, as a path. -/
def acceptedPath (c : HttpConn) : Option (Bool × List Byte) :=
  (HttpRequest.init.parse (fun _ _ _ => true) c.readBuff).map fun p => (p.1, p.2.1.path)

theorem startResponse_accepted {c : HttpConn} {path : List Byte} (srcDir : List Byte)
    (hdir : srcDir ≠ []) (h : c.acceptedPath = some (true, path)) :
  ∃ request b, HttpRequest.init.parse (fun _ _ _ => true) c.readBuff = some (true, request, b) ∧
    startResponse srcDir true request
      = some ⟨200, request.isKeepAlive, path, srcDir, none, ⟨0, 0⟩⟩
  := by
  obtain ⟨⟨ok, request, b⟩, hparse, heq⟩ := Option.map_eq_some_iff.mp h
  obtain ⟨rfl, rfl⟩ := Prod.mk.inj heq
  refine ⟨request, b, hparse, ?_⟩
  simp [startResponse, HttpResponse.init, hdir]

/-- A target with two dots leads out of the resource directory. -/
theorem dotdot_outside :
  ∃ request b r, HttpRequest.init.parse (fun _ _ _ => true)
      (hasReadTarget (ascii "/../../etc/passwd")).readBuff = some (true, request, b) ∧
    startResponse (ascii "/srv/www") true request = some r ∧
    ¬ ∀ name ∈ r.fileNames threeBytes, Inside slash dot [] (ascii "/srv/www") name
  := by
  have haccepted : (hasReadTarget (ascii "/../../etc/passwd")).acceptedPath
      = some (true, ascii "/../../etc/passwd") := by decide
  obtain ⟨request, b, hparse, hstart⟩ := startResponse_accepted (ascii "/srv/www") (by decide) haccepted
  refine ⟨request, b, _, hparse, hstart, ?_⟩
  intro h
  have hname : Inside slash dot [] (ascii "/srv/www") (ascii "/srv/www/../../etc/passwd") := by
    apply h
    rw [fileNames, List.mem_cons]
    left
    change ascii "/srv/www/../../etc/passwd"
      = (ascii "/srv/www" ++ ascii "/../../etc/passwd").takeWhile (· ≠ 0)
    decide
  revert hname
  decide

/-- A target that goes up and down again leads into it. -/
theorem updown_inside :
  ∃ request b r, HttpRequest.init.parse (fun _ _ _ => true)
      (hasReadTarget (ascii "/a/../b.html")).readBuff = some (true, request, b) ∧
    startResponse (ascii "/srv/www") true request = some r ∧
    ∀ name ∈ r.fileNames threeBytes, Inside slash dot [] (ascii "/srv/www") name
  := by
  have haccepted : (hasReadTarget (ascii "/a/../b.html")).acceptedPath
      = some (true, ascii "/a/../b.html") := by decide
  obtain ⟨request, b, hparse, hstart⟩ := startResponse_accepted (ascii "/srv/www") (by decide) haccepted
  refine ⟨request, b, _, hparse, hstart, ?_⟩
  apply (accepted_inside_iff (by decide) hparse hstart (by decide) threeBytes []).2.mpr
  decide

end HttpConn
