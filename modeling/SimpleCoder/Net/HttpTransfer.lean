/-
# Transfers

`http_request` sets up a transfer and lets libcurl perform it: the body comes in pieces, in whatever
sizes the network makes of it, and `write_cb` keeps what fits under the cap and then breaks the
transfer off.

* §1: the functions, over what libcurl does (`Curl`).
* §2: however the body is cut, the response is that of the body in one piece (`httpRequest_eq`).
-/
import SimpleCoder.Net.HttpClient

namespace SimpleCoder.HttpTransfer

variable {W : Type}

/-! ## 1. The functions -/

/-- `WriteCtx`. -/
structure WriteCtx where
  body : Bytes := []
  max : Nat
  truncated : Bool := false

/-- `write_cb`: how many bytes it took, and the context behind it. -/
def writeCb (ctx : WriteCtx) (piece : Bytes) : Nat × WriteCtx :=
  let n := piece.length
  let room := if ctx.body.length < ctx.max then ctx.max - ctx.body.length else 0
  if n ≤ room then (n, { ctx with body := ctx.body ++ piece })
  else (0, { ctx with body := ctx.body ++ piece.take room, truncated := true })

/-- The options that are set.  The system reads the texts up to their first NUL. -/
structure CurlOptions where
  url : Bytes
  headers : List Bytes
  /-- The body of a `POST`. -/
  post : Option Bytes
  followLocation : Bool := true
  maxRedirs : Nat := 5
  acceptEncoding : Bytes := []
  connectTimeout : Nat := 10
  timeout : Int
  userAgent : Bytes := bytes "SimpleCoder/0.1"

/-- What libcurl finds: the body in pieces, whether it came to its end (else the text of the error),
and what it knows of the response. -/
structure Transfer where
  pieces : List Bytes
  failure : Option Bytes := none
  status : Int
  contentType : Option Bytes := none

/-- libcurl: `curl_easy_init`, and the transfer that it performs. -/
structure Curl (W : Type) where
  init : W → Bool × W
  transfer : CurlOptions → W → Transfer × W

/-- `CURLcode`, as far as it matters. -/
inductive CurlCode where
  | ok
  | writeError
  | failed (error : Bytes)

/-- How a transfer ends that is not broken off. -/
def CurlCode.ending : Option Bytes → CurlCode
  | none => .ok
  | some error => .failed error

/-- `curl_easy_perform`: pieces are handed over until one is not taken whole. -/
def perform (failure : Option Bytes) : List Bytes → WriteCtx → CurlCode × WriteCtx
  | [], ctx => (.ending failure, ctx)
  | piece :: pieces, ctx =>
    let (taken, ctx) := writeCb ctx piece
    if taken = piece.length then perform failure pieces ctx else (.writeError, ctx)

/-- `curl_easy_strerror`. -/
def CurlCode.text : CurlCode → Bytes
  | .ok => bytes "No error"
  | .writeError => bytes "Failed writing received data to disk/application"
  | .failed error => error

/-- The cap; the largest `size_t` if there is none. -/
def cap (req : HttpRequest) : Nat :=
  if 0 < req.maxBytes then req.maxBytes.toNat else 2 ^ 64 - 1

def options (req : HttpRequest) : CurlOptions where
  url := req.url.takeWhile (· ≠ 0)
  headers := req.headers.map fun h => h.takeWhile (· ≠ 0)
  post := if req.method = bytes "POST" then some req.body else none
  timeout := req.timeoutS

/-- What is made of a transfer. -/
def Transfer.response (t : Transfer) (cap : Nat) : HttpResponse :=
  let (rc, ctx) := perform t.failure t.pieces { max := cap }
  let res : HttpResponse :=
    { body := ctx.body, truncated := ctx.truncated, contentType := t.contentType.getD [] }
  match rc with
  | .ok => { res with status := t.status }
  | .writeError =>
    if ctx.truncated then { res with status := t.status }
    else { res with error := CurlCode.writeError.text }
  | .failed error => { res with error := error }

/-- `http_request`. -/
def httpRequest (curl : Curl W) : HttpFn W := fun req w =>
  match curl.init w with
  | (false, w) => ({ error := bytes "failed to initialize libcurl" }, w)
  | (true, w) =>
    let (t, w) := curl.transfer (options req) w
    (t.response (cap req), w)

/-! ## 2. However the body is cut -/

/-- **What is stored** of a body, and whether the transfer is broken off. -/
theorem perform_eq (failure : Option Bytes) (pieces : List Bytes) {ctx : WriteCtx}
    (h : ctx.body.length ≤ ctx.max) :
    perform failure pieces ctx =
      if (ctx.body ++ pieces.flatten).length ≤ ctx.max then
        (.ending failure, { ctx with body := ctx.body ++ pieces.flatten })
      else
        (.writeError, { ctx with
          body := (ctx.body ++ pieces.flatten).take ctx.max
          truncated := true }) := by
  induction pieces generalizing ctx with
  | nil =>
    simp only [perform, List.flatten_nil, List.append_nil]
    rw [if_pos h]
  | cons piece pieces ih =>
    have hroom : (if ctx.body.length < ctx.max then ctx.max - ctx.body.length else 0) =
        ctx.max - ctx.body.length := by
      split <;> omega
    have hwhole : ctx.body ++ (piece :: pieces).flatten =
        (ctx.body ++ piece) ++ pieces.flatten := by simp
    unfold perform writeCb
    rw [hroom, hwhole]
    dsimp only
    by_cases hfits : piece.length ≤ ctx.max - ctx.body.length
    · -- the piece fits
      rw [if_pos hfits]
      dsimp only
      rw [if_pos rfl]
      refine ih ?_
      rw [List.length_append]
      dsimp only
      omega
    · -- it is cut at the cap, and the rest never comes
      rw [if_neg hfits]
      dsimp only
      have hcut : ¬ (ctx.body ++ piece ++ pieces.flatten).length ≤ ctx.max := by
        simp only [List.length_append]
        omega
      have htake : (ctx.body ++ piece ++ pieces.flatten).take ctx.max =
          ctx.body ++ piece.take (ctx.max - ctx.body.length) := by
        rw [List.append_assoc, List.take_append, List.take_of_length_le h,
          List.take_append_of_le_length (by omega)]
      rw [if_neg (by omega), if_neg hcut, htake]

/-- **What is made of a transfer.**  Breaking it off at the cap is no failure. -/
theorem Transfer.response_eq (t : Transfer) (cap : Nat) :
    t.response cap =
      if t.pieces.flatten.length ≤ cap then
        { status := if t.failure = none then t.status else 0
          body := t.pieces.flatten
          contentType := t.contentType.getD []
          error := t.failure.getD []
          truncated := false }
      else
        { status := t.status
          body := t.pieces.flatten.take cap
          contentType := t.contentType.getD []
          truncated := true } := by
  have hperform := @perform_eq t.failure t.pieces { max := cap } (Nat.zero_le _)
  simp only [List.nil_append] at hperform
  unfold Transfer.response
  by_cases hfits : t.pieces.flatten.length ≤ cap
  · rw [hperform, if_pos hfits, if_pos hfits]
    cases t.failure <;> rfl
  · rw [hperform, if_neg hfits, if_neg hfits]
    rfl

/-- The same, with the bodies cut in another way. -/
structure Curl.Alike (curl curl' : Curl W) : Prop where
  init : curl'.init = curl.init
  world : ∀ opts w, (curl'.transfer opts w).2 = (curl.transfer opts w).2
  body : ∀ opts w, (curl'.transfer opts w).1.pieces.flatten =
    (curl.transfer opts w).1.pieces.flatten
  failure : ∀ opts w, (curl'.transfer opts w).1.failure = (curl.transfer opts w).1.failure
  status : ∀ opts w, (curl'.transfer opts w).1.status = (curl.transfer opts w).1.status
  contentType : ∀ opts w,
    (curl'.transfer opts w).1.contentType = (curl.transfer opts w).1.contentType

theorem httpRequest_of_init {curl : Curl W} {w : W} (req : HttpRequest)
    (h : (curl.init w).1 = true) :
    (httpRequest curl req w).1 =
      (curl.transfer (options req) (curl.init w).2).1.response (cap req) := by
  have hpair : curl.init w = (true, (curl.init w).2) := Prod.ext h rfl
  unfold httpRequest
  rw [hpair]

/-- **The response is that of the body**, however the network cuts it: the bytes under the cap, with
a mark if there were more, and a failure only if the transfer failed before the cap was reached. -/
theorem httpRequest_body (curl : Curl W) :
    (∀ curl', curl.Alike curl' → httpRequest curl' = httpRequest curl) ∧
    ∀ req w, (curl.init w).1 = true →
      let t := (curl.transfer (options req) (curl.init w).2).1
      let res := (httpRequest curl req w).1
      res.body = t.pieces.flatten.take (cap req) ∧
        (res.truncated = true ↔ cap req < t.pieces.flatten.length) ∧
        res.status = (if res.truncated = true ∨ t.failure = none then t.status else 0) ∧
        res.error = (if res.truncated = true then [] else t.failure.getD []) := by
  constructor
  · intro curl' h
    funext req w
    unfold httpRequest
    rw [h.init]
    split
    · rfl
    · rename_i w' hinit
      dsimp only
      rw [Transfer.response_eq, Transfer.response_eq, h.body, h.failure, h.status, h.contentType,
        h.world]
  · intro req w hinit t res
    have hres : res = t.response (cap req) := httpRequest_of_init req hinit
    rw [hres, Transfer.response_eq]
    split
    · rename_i hfits
      refine ⟨(List.take_of_length_le hfits).symm, ?_, ?_, ?_⟩
      · simp only [Bool.false_eq_true, false_iff]
        omega
      · simp only [Bool.false_eq_true, false_or]
      · rw [if_neg Bool.false_ne_true]
    · rename_i hcut
      refine ⟨rfl, ?_, ?_, ?_⟩
      · simp only [true_iff]
        omega
      · rw [if_pos (.inl rfl)]
      · rw [if_pos rfl]

/-- A network that knows one page. -/
def Curl.ofPage (pieces : List Bytes) : Curl Unit where
  init w := (true, w)
  transfer _ w := ({ pieces, status := 200 }, w)

/-- Three pieces, and room for the first one and half of the second. -/
theorem httpRequest_body_capped :
    let req : HttpRequest := { url := bytes "http://localhost/", maxBytes := 6 }
    let curl := Curl.ofPage [bytes "page", bytes " one", bytes "."]
    (httpRequest curl req ()).1.body = bytes "page o" ∧
      (httpRequest curl req ()).1.truncated = true ∧ (httpRequest curl req ()).1.status = 200 ∧
      httpRequest (Curl.ofPage [bytes "p", bytes "age one."]) req () = httpRequest curl req () := by
  intro req curl
  obtain ⟨halike, hres⟩ := httpRequest_body curl
  obtain ⟨hbody, htruncated, hstatus, -⟩ := hres req () rfl
  have hcut : (httpRequest curl req ()).1.truncated = true := htruncated.mpr (by decide)
  refine ⟨hbody.trans (by decide), hcut, hstatus.trans (if_pos (.inl hcut)), ?_⟩
  have hbytes : [bytes "p", bytes "age one."].flatten =
      [bytes "page", bytes " one", bytes "."].flatten := by decide
  have hsame : curl.Alike (Curl.ofPage [bytes "p", bytes "age one."]) :=
    ⟨rfl, fun _ _ => rfl, fun _ _ => hbytes, fun _ _ => rfl, fun _ _ => rfl, fun _ _ => rfl⟩
  rw [halike _ hsame]

end SimpleCoder.HttpTransfer
