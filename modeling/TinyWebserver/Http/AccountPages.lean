import TinyWebserver.Http.FormEncoding
import TinyWebserver.Http.Serving

/-!
# The pages for accounts

A client posts the form of the login page or of the registration page. The body is decoded, `UserVerify` is
asked for the name and the password, and its answer decides between two pages. From the encoded form to the
reply, `serve_account`: the client is sent the page for the answer about the name and the password that it
has encoded.
-/

namespace HttpRequest

variable {pairs : List (List Byte × List Byte)} {r r' : HttpRequest} {name pwd : List Byte}

/-! ### The body -/

theorem notMem_encodes {xs ys : List Byte} (h : Encodes xs ys) :
  cr ∉ ys
  := by
  have hdigits : ∀ n < 16, cr ∉ hexDigits n := by decide
  induction h with
  | nil => simp
  | cons hb _ ih =>
      rw [List.mem_append, not_or]
      refine ⟨?_, ih⟩
      cases hb with
      | plus => decide
      | unreserved hb =>
          rw [List.mem_singleton]
          rintro rfl
          exact absurd hb (by decide)
      | escape _ _ hhigh hlow =>
          simp only [List.mem_cons, List.not_mem_nil, or_false, not_or]
          refine ⟨by decide, ?_, ?_⟩
          · rintro rfl
            exact hdigits _ (Nat.div_lt_of_lt_mul (UInt8.toNat_lt _)) hhigh
          · rintro rfl
            exact hdigits _ (Nat.mod_lt _ (by decide)) hlow

/-- An encoded form is one line. -/
theorem EncodesForm.notMem_cr {body : List Byte} (h : EncodesForm pairs body) :
  cr ∉ body
  := by
  obtain ⟨segs, hsegs, rfl⟩ := h
  induction hsegs with
  | nil => simp
  | @cons p seg ps segs hp _ ih =>
      have hseg : cr ∉ seg := by
        obtain ⟨k, v, hk, hv, rfl⟩ := hp
        simp only [List.mem_append, List.mem_cons, not_or]
        exact ⟨notMem_encodes hk, by decide, notMem_encodes hv⟩
      by_cases hnil : segs = []
      · rw [hnil, List.intercalate_singleton]
        apply hseg
      · rw [List.intercalate_cons_of_ne_nil hnil]
        simp only [List.mem_append, not_or]
        exact ⟨⟨hseg, by decide⟩, ih⟩

/-- A form with a pair is not empty. -/
theorem EncodesForm.ne_nil {body : List Byte} (h : EncodesForm pairs body) (hne : pairs ≠ []) :
  body ≠ []
  := by
  obtain ⟨segs, hsegs, rfl⟩ := h
  cases hsegs with
  | nil => exact absurd rfl hne
  | @cons p seg ps segs hp _ =>
      have hseg : seg ≠ [] := by
        obtain ⟨k, v, -, -, rfl⟩ := hp
        simp
      by_cases hnil : segs = []
      · rw [hnil, List.intercalate_singleton]
        apply hseg
      · rw [List.intercalate_cons_of_ne_nil hnil]
        simp

/-- The decoder changes the body and the pairs only. -/
theorem parseFromUrlencoded_keeps (h : parseFromUrlencoded r = some r') :
  ∃ body post, r' = { r with body := body, post := post }
  := by
  rw [parseFromUrlencoded] at h
  split at h
  · obtain rfl := Option.some.inj h
    exact ⟨r.body, r.post, rfl⟩
  · obtain ⟨s, -, hs⟩ := Option.bind_eq_some_iff.mp h
    split at hs
    · obtain rfl := Option.some.inj hs
      exact ⟨_, _, rfl⟩
    · cases hs

/-- Reading an entry changes no value. -/
theorem touch_getD (m : StringMap) (k x : List Byte) :
  (m.touch k x).getD [] = (m x).getD []
  := by
  unfold StringMap.touch
  split
  · rfl
  · rename_i hk
    by_cases hx : x = k
    · subst hx
      rw [StringMap.set, Function.update_self, Option.not_isSome_iff_eq_none.mp hk]
      rfl
    · rw [StringMap.set, Function.update_of_ne hx]

theorem touch_of_ne (m : StringMap) {k x : List Byte} (h : x ≠ k) :
  m.touch k x = m x
  := by
  unfold StringMap.touch
  split
  · rfl
  · rw [StringMap.set, Function.update_of_ne h]

/-- The page for the answer of `UserVerify`. -/
def accountPage (ok : Bool) : List Byte := if ok then ascii "/welcome.html" else ascii "/error.html"

/-- The page with the form. -/
def formPage (isLogin : Bool) : List Byte := if isLogin then ascii "/login.html" else ascii "/register.html"

theorem defaultHtmlTag_formPage (isLogin : Bool) :
  ∃ tag, defaultHtmlTag (formPage isLogin) = some tag ∧ (tag == 1) = isLogin
  := by
  cases isLogin
  · exact ⟨0, by decide, rfl⟩
  · exact ⟨1, by decide, rfl⟩

/-- `ParsePost_` on the encoded form of a name and a password. -/
theorem parsePost_account (verify : Verify) (name pwd : List Byte) {isLogin : Bool} (hmethod : r.method = ascii "POST")
    (htype : r.header (ascii "Content-Type") = some (ascii "application/x-www-form-urlencoded"))
    (hpath : r.path = formPage isLogin) (hpost : r.post = .empty) (hform : EncodesForm pairs r.body)
    (hkeys : (pairs.map Prod.fst).Nodup) (hne : ∀ p ∈ pairs, p.1 ≠ []) (hplain : PlainPairs pairs r.body)
    (hname : (ascii "username", name) ∈ pairs) (hpwd : (ascii "password", pwd) ∈ pairs) :
  ∃ r', r.parsePost verify = some r' ∧ r'.path = accountPage (verify name pwd isLogin) ∧
    r'.version = r.version ∧ r'.header (ascii "Connection") = r.header (ascii "Connection")
  := by
  let r₁ : HttpRequest := { r with header := r.header.touch (ascii "Content-Type") }
  have htype₁ : r₁.header (ascii "Content-Type") = some (ascii "application/x-www-form-urlencoded") :=
    StringMap.touch_of_some _ htype
  obtain ⟨r₂, hr₂, hget⟩ := (getPost_encoded (r := r₁) hne hkeys hform hpost).1 hplain
  obtain ⟨body, post, rfl⟩ := parseFromUrlencoded_keeps hr₂
  obtain ⟨tag, htag, hlogin⟩ := defaultHtmlTag_formPage isLogin
  have hvalue : ∀ p ∈ pairs,
      (((post.touch (ascii "username")).touch (ascii "password")) p.1).getD [] = p.2 := by
    intro p hp
    have hp' := hget p hp
    rw [getPost_eq (hne p hp)] at hp'
    rw [touch_getD, touch_getD]
    apply Option.some.inj hp'
  have htag' : defaultHtmlTag r.path = some tag := by rw [hpath, htag]
  have hparse : parseFromUrlencoded { r with header := r.header.touch (ascii "Content-Type") }
      = some { r₁ with body := body, post := post } := hr₂
  rw [parsePost, if_pos hmethod]
  dsimp only
  rw [if_pos htype₁, hparse]
  simp only [Option.bind_eq_bind, Option.bind_some, r₁, htag']
  refine ⟨_, rfl, ?_, rfl, touch_of_ne _ (by decide)⟩
  rw [hvalue _ hname, hvalue _ hpwd, hlogin]
  rfl

end HttpRequest

/-! ### From the form to the page -/

namespace Message

open HttpRequest

variable {q : Message} {name pwd : List Byte} {isLogin : Bool}

/-- The message posts the form of the login page, or of the registration page, with a name and a password.
The form may have further fields, and all of it comes back from the decoder. -/
structure PostsAccount (q : Message) (isLogin : Bool) (name pwd : List Byte) : Prop where
  isForm : q.IsForm
  page : q.path = formPage isLogin
  fields : ∃ pairs, EncodesForm pairs q.body ∧ (pairs.map Prod.fst).Nodup ∧ (∀ p ∈ pairs, p.1 ≠ []) ∧
    PlainPairs pairs q.body ∧ (ascii "username", name) ∈ pairs ∧ (ascii "password", pwd) ∈ pairs

/-- Such a message asks for the page for the answer of `UserVerify`. -/
theorem PostsAccount.asks (hposts : q.PostsAccount isLogin name pwd) (h : q.WellFormed) (verify : Verify) :
  q.Asks verify q.body (accountPage (verify name pwd isLogin))
  := by
  obtain ⟨pairs, hform, hkeys, hne, hplain, hname, hpwd⟩ := hposts.fields
  have hline : ¬ crlf <:+: q.body := by
    intro hinfix
    apply hform.notMem_cr
    apply hinfix.subset
    decide
  have hbody : q.body ≠ [] := hform.ne_nil (List.ne_nil_of_mem hname)
  obtain ⟨r', hpost, hpath, hversion, hconnection⟩ :=
    parsePost_account (r := { q.parsed with state := .body, body := q.body }) verify name pwd
      hposts.isForm.1 ((h.headerMap_iff (_, _)).mpr hposts.isForm.2) hposts.page rfl hform hkeys hne hplain hname hpwd
  refine ⟨{ r' with state := .finish }, ?_, hpath, ?_⟩
  · have hparse : HttpRequest.parseBody verify { q.parsed with state := .body } q.body
        = some { r' with state := .finish } := by
      rw [HttpRequest.parseBody, hpost]
      rfl
    rw [Message.received, if_neg hbody, firstLine_of_oneLine hline, hparse]
    rfl
  · rw [isKeepAlive, decide_eq_true_eq]
    dsimp only
    rw [hversion]
    apply h.alive_iff hconnection

end Message

namespace HttpConn

open HttpRequest HttpResponse Transition

variable {c : HttpConn}

/-- Whatever the object was used for before: if a client for whom it is initialised posts the form of the
login page or of the registration page, which the calls of `readv` deliver to the last byte, and the page for
the answer of `UserVerify` about the name and the password that it has encoded is there, then it is sent this
page, as far as the kernel accepts it. -/
theorem serve_account {ops : List Op} (hops : ∀ op ∈ ops, op.Small) (hrun : run step new ops = some c)
    {v : Visit} (hfd : 0 < v.fd) {q : Message} (hq : q.WellFormed) {isLogin : Bool} {name pwd : List Byte}
    (hposts : q.PostsAccount isLogin name pwd) (hread : (new.read v.isET v.delivered).isSome = true)
    (hdelivered : delivered v.delivered = q.serialize) (hdir : v.srcDir ≠ []) {file : List Byte}
    (hfile : v.fs.Has
      (found v.srcDir (accountPage (v.verify name pwd isLogin)) (decide q.IsAlive)).fileName file) :
  ∃ sent, c.serve v = some sent ∧
    Sends (Reply.page (found v.srcDir (accountPage (v.verify name pwd isLogin)) (decide q.IsAlive)) file).text
      v.accepted sent
  := serve_asked hops hrun hfd hq (hposts.asks hq _) hread hdelivered hdir hfile

/-- A message with the form of the login page. -/
def loginOfAnn : Message where
  method := ascii "POST"
  target := ascii "/login"
  version := ascii "1.1"
  headers := [(ascii "Content-Type", ascii "application/x-www-form-urlencoded")]
  body := ascii "username=ann&password=p+w"

theorem loginOfAnn_postsAccount :
  loginOfAnn.PostsAccount true (ascii "ann") (ascii "p w")
  where
  isForm := by decide
  page := by decide
  fields := by
    refine ⟨_, encodesForm_plain, by decide, by decide, ⟨by decide, ?_⟩, by simp, by simp⟩
    simp only [Plain]
    decide +kernel

/-- The message comes in two parts, and `ann` has the password `p w`. -/
def loggingIn : Visit where
  fd := 5
  isKeepAlive := false
  isET := true
  delivered := [.ok (loginOfAnn.serialize.take 30), .ok (loginOfAnn.serialize.drop 30), .error 11]
  verify := fun name pwd _ => name = ascii "ann" ∧ pwd = ascii "p w"
  fs := threeBytes
  srcDir := ascii "/srv"
  accepted := [.ok 60, .ok 62]

theorem serve_account_loggingIn :
  ∃ c sent, run step new hungUp = some c ∧ c.serve loggingIn = some sent ∧
    Sends (Reply.page (found (ascii "/srv") (accountPage true) (decide loginOfAnn.IsAlive)) (ascii "abc")).text
      loggingIn.accepted sent
  := by
  have hsome : (run step new hungUp).isSome = true := by decide +kernel
  obtain ⟨c, hc⟩ := Option.isSome_iff_exists.mp hsome
  have hops : ∀ op ∈ hungUp, op.Small := by simp [hungUp, Op.Small, threeBytes_small]
  obtain ⟨sent, hserve, hsends⟩ := serve_account hops hc (v := loggingIn) (by decide) (q := loginOfAnn)
    (by decide) loginOfAnn_postsAccount (by decide +kernel) (by decide +kernel) (by decide) (threeBytes_has _)
  exact ⟨c, sent, hc, hserve, hsends⟩

end HttpConn
