/- GID: DragonsNet/Dataplane/Upstreams
   source: migration/dataplane/host/src/proxy_dial.rs
   digest: The blocking forward and the streamed forward of one exchange with an upstream. -/

import DragonsNet.Dataplane.Chunked
import DragonsNet.Dataplane.ResponseHeads

set_option autoImplicit false

namespace DragonsNet.Dataplane.Upstreams

open Dataplane.Chunked (wrap ChunkedParser)
open Dataplane.ResponseHeads

/-- What one read, or one splice, meets: up to `n + 1` octets, an error, or the error of a kernel
that cannot splice. -/
inductive Cut where
  | upTo (n : ℕ)
  | fail
  | refuse
  deriving DecidableEq, Repr

/-- An upstream's side of a connection: whether it takes the request, the octets it sends, whether
it closes after them, and how each read of them is cut. -/
structure Sock where
  accepts : Bool
  stream : List UInt8
  ends : Bool
  cuts : List Cut
  deriving DecidableEq, Repr

/-- The socket while an exchange runs: what is still to come, and what has been read. -/
structure Upstream where
  stream : List UInt8
  ends : Bool
  taken : List UInt8
  deriving DecidableEq, Repr

/-- A read of at most `cap` octets: none while the upstream sends nothing more and stays open;
otherwise the octets, none of them at the end, or an error. -/
def Upstream.recv (cap : ℕ) (c : Cut) (u : Upstream) : Option (Option (List UInt8) × Upstream) :=
  match c with
  | .fail => some (none, u)
  | .refuse => some (none, u)
  | .upTo n =>
    if u.stream = [] then if u.ends then some (some [], u) else none
    else
      let k := min (n + 1) cap
      some (some (u.stream.take k),
        { u with stream := u.stream.drop k, taken := u.taken ++ u.stream.take k })

def readBlock : ℕ := 16384

inductive HeadRead where
  | head (buf : List UInt8) (headEnd : ℕ)
  | closed (buf : List UInt8)
  | failed
  deriving DecidableEq, Repr

/-- The octets read up to the end of the head, and past it as far as the last block goes. -/
def readHead (buf : List UInt8) : List Cut → Upstream → Option (HeadRead × Upstream × List Cut)
  | [], u =>
    match find crlfcrlf buf with
    | some p => some (.head buf (p + 4), u, [])
    | none => none
  | c :: cuts, u =>
    match find crlfcrlf buf with
    | some p => some (.head buf (p + 4), u, c :: cuts)
    | none =>
      match u.recv readBlock c with
      | none => none
      | some (none, u) => some (.failed, u, cuts)
      | some (some [], u) => some (.closed buf, u, cuts)
      | some (some (b :: block), u) => readHead (buf ++ b :: block) cuts u

/-! ## The whole reply in one buffer -/

/-- Read on until the buffer holds `want` octets or the upstream closes. -/
def readUntil (want : ℕ) (buf : List UInt8) :
    List Cut → Upstream → Option (Except Unit (List UInt8) × Upstream)
  | [], u => if want ≤ buf.length then some (.ok buf, u) else none
  | c :: cuts, u =>
    if want ≤ buf.length then some (.ok buf, u)
    else
      match u.recv readBlock c with
      | none => none
      | some (none, u) => some (.error (), u)
      | some (some [], u) => some (.ok buf, u)
      | some (some (b :: block), u) => readUntil want (buf ++ b :: block) cuts u

def readToEnd (buf : List UInt8) :
    List Cut → Upstream → Option (Except Unit (List UInt8) × Upstream)
  | [], _ => none
  | c :: cuts, u =>
    match u.recv readBlock c with
    | none => none
    | some (none, u) => some (.error (), u)
    | some (some [], u) => some (.ok buf, u)
    | some (some (b :: block), u) => readToEnd (buf ++ b :: block) cuts u

def readResponse (cuts : List Cut) (u : Upstream) :
    Option (Except Unit (List UInt8) × Upstream) :=
  match readHead [] cuts u with
  | none => none
  | some (.failed, u, _) => some (.error (), u)
  | some (.closed buf, u, _) => some (.ok buf, u)
  | some (.head buf headEnd, u, cuts) =>
    match contentLength (buf.take headEnd) with
    | some clen => readUntil (wrap (headEnd + clen)) buf cuts u
    | none => readToEnd buf cuts u

def forwardOnce (s : Sock) : Option (Except Unit (List UInt8) × Upstream) :=
  if s.accepts then readResponse s.cuts ⟨s.stream, s.ends, []⟩
  else some (.error (), ⟨s.stream, s.ends, []⟩)

/-- What the proven core answers to a response head's block, and how the host marks the head it gets
with the client's disposition. -/
structure Seams where
  respGated : List UInt8 → List UInt8
  annotate : Bool → List UInt8 → List UInt8

def Seams.forwardResponseHeadGated (S : Seams) (head : List UInt8) : Option (List UInt8) :=
  let blockEnd := (find crlfcrlf head).getD head.length
  match S.respGated (head.take blockEnd) with
  | 0 :: out => some (out ++ head.drop blockEnd)
  | _ => none

def Seams.clientRespHead (S : Seams) (head : List UInt8) (keepalive : Bool) :
    Option (List UInt8) :=
  (S.forwardResponseHeadGated head).map (S.annotate keepalive)

/-- The sockets an exchange gets: the first, pooled or not, and the one dialled when that one turns
out stale. -/
structure Dials where
  first : Option (Sock × Bool)
  fresh : Option Sock

/-- Tried on the first socket, and once more on a fresh one where the first came from the pool. -/
def Dials.attempt {α : Type} (d : Dials) (try_ : Sock → Option (Except Unit α)) :
    Option (Except Unit α) :=
  match d.first with
  | none => some (.error ())
  | some (s, reused) =>
    match try_ s with
    | some (.error _) =>
      if reused then
        match d.fresh with
        | none => some (.error ())
        | some fresh => try_ fresh
      else some (.error ())
    | other => other

/-- What `forward` gives: the reply, the socket it was read from, and whether that was pooled. -/
structure Forwarded where
  resp : List UInt8
  up : Upstream
  pooled : Bool

def Seams.poolsForward (S : Seams) (resp : List UInt8) : Bool :=
  match find crlfcrlf resp with
  | none => false
  | some p =>
    let headEnd := p + 4
    let head := resp.take headEnd
    (S.forwardResponseHeadGated head).isSome &&
      match contentLength head with
      | none => false
      | some clen => resp.length == wrap (headEnd + clen) && respUpstreamKeepalive head

def forward (S : Seams) (d : Dials) : Option (Except Unit Forwarded) :=
  d.attempt fun s =>
    (forwardOnce s).map fun (r, up) => r.map fun resp => ⟨resp, up, S.poolsForward resp⟩

/-! ## The streamed reply -/

/-- The client: what has been written to it, and how many octets each write or splice takes, none of
them where it fails. -/
structure Client where
  written : List UInt8
  takes : List ℕ
  deriving DecidableEq, Repr

/-- The octets written in as many pieces as it takes, whole or up to a failure. -/
def writeAll (data : List UInt8) : List ℕ → List UInt8 → Bool × Client
  | [], written => (data.isEmpty, ⟨written, []⟩)
  | k :: takes, written =>
    if data.isEmpty then (true, ⟨written, k :: takes⟩)
    else if k = 0 then (false, ⟨written, takes⟩)
    else writeAll (data.drop k) takes (written ++ data.take k)

def Client.writeAll (c : Client) (data : List UInt8) : Bool × Client :=
  Upstreams.writeAll data c.takes c.written

/-- Both ends of a streamed exchange, and the octets counted as written. -/
structure Pump where
  up : Upstream
  client : Client
  bytes : ℕ

def Pump.write (p : Pump) (data : List UInt8) : Bool × Pump :=
  match p.client.writeAll data with
  | (true, client) => (true, { p with client, bytes := p.bytes + data.length })
  | (false, client) => (false, { p with client })

def streamChunk : ℕ := 65536

def streamFixedLoop (remaining : ℕ) : List Cut → Pump → Option (Bool × Pump)
  | [], p => if remaining = 0 then some (true, p) else none
  | c :: cuts, p =>
    if remaining = 0 then some (true, p)
    else
      match p.up.recv streamChunk c with
      | none => none
      | some (none, up) => some (false, { p with up })
      | some (some [], up) => some (false, { p with up })
      | some (some (b :: block), up) =>
        let w := min (b :: block).length remaining
        match Pump.write { p with up } ((b :: block).take w) with
        | (false, p) => some (false, p)
        | (true, p) => streamFixedLoop (remaining - w) cuts p

def streamFixed (leftover : List UInt8) (clen : ℕ) (cuts : List Cut) (p : Pump) :
    Option (Bool × Pump) :=
  let take := min leftover.length clen
  match p.write (leftover.take take) with
  | (false, p) => some (false, p)
  | (true, p) => streamFixedLoop (clen - take) cuts p

def streamToEofLoop : List Cut → Pump → Option (Bool × Pump)
  | [], _ => none
  | c :: cuts, p =>
    match p.up.recv streamChunk c with
    | none => none
    | some (none, up) => some (false, { p with up })
    | some (some [], up) => some (true, { p with up })
    | some (some (b :: block), up) =>
      match Pump.write { p with up } (b :: block) with
      | (false, p) => some (false, p)
      | (true, p) => streamToEofLoop cuts p

def streamToEof (leftover : List UInt8) (cuts : List Cut) (p : Pump) : Option (Bool × Pump) :=
  match p.write leftover with
  | (false, p) => some (false, p)
  | (true, p) => streamToEofLoop cuts p

/-- The loop of `stream_chunked`: each block is written, then parsed. -/
def streamChunkedLoop (parser : ChunkedParser) : List Cut → Pump → Option (Bool × Pump)
  | [], _ => none
  | c :: cuts, p =>
    match p.up.recv streamChunk c with
    | none => none
    | some (none, up) => some (false, { p with up })
    | some (some [], up) => some (false, { p with up })
    | some (some (b :: block), up) =>
      match Pump.write { p with up } (b :: block) with
      | (false, p) => some (false, p)
      | (true, p) =>
        match parser.advance (b :: block) with
        | (true, _) => some (true, p)
        | (false, parser) => streamChunkedLoop parser cuts p

def streamChunked (leftover : List UInt8) (cuts : List Cut) (p : Pump) : Option (Bool × Pump) :=
  if leftover.isEmpty then streamChunkedLoop Chunked.new cuts p
  else
    match p.write leftover with
    | (false, p) => some (false, p)
    | (true, p) =>
      match Chunked.new.advance leftover with
      | (true, _) => some (true, p)
      | (false, parser) => streamChunkedLoop parser cuts p

/-! ## The kernel's relay -/

inductive Outcome where
  | ran (clean : Bool)
  | unsupported
  deriving DecidableEq, Repr

/-- `drain`: so many octets of the pipe to the client, each counted as it goes. -/
def drain (inPipe : ℕ) (pipe : List UInt8) (p : Pump) : Bool × List UInt8 × Pump :=
  let (ok, client) := p.client.writeAll (pipe.take inPipe)
  let moved := client.written.length - p.client.written.length
  (ok, pipe.drop moved, { p with client, bytes := p.bytes + moved })

def moveExact (first : Bool) (remaining : ℕ) (pipe : List UInt8) :
    List Cut → Pump → Option (Outcome × List UInt8 × List Cut × Pump)
  | [], p => if remaining = 0 then some (.ran true, pipe, [], p) else none
  | c :: cuts, p =>
    if remaining = 0 then some (.ran true, pipe, c :: cuts, p)
    else if first && c == .refuse then some (.unsupported, pipe, cuts, p)
    else
      match p.up.recv (min remaining streamChunk) c with
      | none => none
      | some (none, up) => some (.ran false, pipe, cuts, { p with up })
      | some (some [], up) => some (.ran false, pipe, cuts, { p with up })
      | some (some (b :: block), up) =>
        match drain (b :: block).length (pipe ++ b :: block) { p with up } with
        | (false, pipe, p) => some (.ran false, pipe, cuts, p)
        | (true, pipe, p) => moveExact false (remaining - (b :: block).length) pipe cuts p

def moveToEof (first : Bool) (pipe : List UInt8) :
    List Cut → Pump → Option (Outcome × List UInt8 × List Cut × Pump)
  | [], _ => none
  | c :: cuts, p =>
    if first && c == .refuse then some (.unsupported, pipe, cuts, p)
    else
      match p.up.recv streamChunk c with
      | none => none
      | some (none, up) => some (.ran false, pipe, cuts, { p with up })
      | some (some [], up) => some (.ran true, pipe, cuts, { p with up })
      | some (some (b :: block), up) =>
        match drain (b :: block).length (pipe ++ b :: block) { p with up } with
        | (false, pipe, p) => some (.ran false, pipe, cuts, p)
        | (true, pipe, p) => moveToEof false pipe cuts p

/-- `Relay::acquire`: the parked relay's pipe, or a new one where the system gives one. -/
def acquire (idle : Option (List UInt8)) (pipes : Bool) : Option (List UInt8) :=
  match idle with
  | some pipe => some pipe
  | none => if pipes then some [] else none

/-- How a pump over the relay goes on: a clean run parks the relay, a failure drops it, and a kernel
that cannot splice parks it and leaves the body to the pump in user space. -/
def relayed (r : Option (Outcome × List UInt8 × List Cut × Pump))
    (fallback : List Cut → Pump → Option (Bool × Pump)) :
    Option (Bool × Pump × Option (List UInt8)) :=
  match r with
  | none => none
  | some (.ran true, pipe, _, p) => some (true, p, some pipe)
  | some (.ran false, _, _, p) => some (false, p, none)
  | some (.unsupported, pipe, cuts, p) => (fallback cuts p).map fun (ok, p) => (ok, p, some pipe)

/-- The body by Content-Length: what was read with the head from here, the rest by the kernel. -/
def bodyFixed (idle : Option (List UInt8)) (pipes : Bool) (leftover : List UInt8) (clen : ℕ)
    (cuts : List Cut) (p : Pump) : Option (Bool × Pump × Option (List UInt8)) :=
  let take := min leftover.length clen
  match p.write (leftover.take take) with
  | (false, p) => some (false, p, idle)
  | (true, p) =>
    let remaining := clen - take
    if remaining = 0 then some (true, p, idle)
    else
      match acquire idle pipes with
      | some pipe => relayed (moveExact true remaining pipe cuts p) (streamFixed [] remaining)
      | none => (streamFixed [] remaining cuts p).map fun (ok, p) => (ok, p, none)

def bodyToEof (idle : Option (List UInt8)) (pipes : Bool) (leftover : List UInt8)
    (cuts : List Cut) (p : Pump) : Option (Bool × Pump × Option (List UInt8)) :=
  match p.write leftover with
  | (false, p) => some (false, p, idle)
  | (true, p) =>
    match acquire idle pipes with
    | some pipe => relayed (moveToEof true pipe cuts p) (streamToEof [])
    | none => (streamToEof [] cuts p).map fun (ok, p) => (ok, p, none)

def body (clen : Option ℕ) (chunked : Bool) (idle : Option (List UInt8)) (pipes : Bool)
    (leftover : List UInt8) (cuts : List Cut) (p : Pump) :
    Option (Bool × Pump × Option (List UInt8)) :=
  match clen with
  | some clen => bodyFixed idle pipes leftover clen cuts p
  | none =>
    if chunked then (streamChunked leftover cuts p).map fun (ok, p) => (ok, p, idle)
    else bodyToEof idle pipes leftover cuts p

/-! ## The exchange -/

structure UpstreamHead where
  up : Upstream
  cuts : List Cut
  buf : List UInt8
  headEnd : ℕ
  clen : Option ℕ
  chunked : Bool

def sendAndReadHead (s : Sock) : Option (Except Unit UpstreamHead) :=
  if s.accepts then
    match readHead [] s.cuts ⟨s.stream, s.ends, []⟩ with
    | none => none
    | some (.failed, _, _) => some (.error ())
    | some (.closed _, _, _) => some (.error ())
    | some (.head buf headEnd, up, cuts) =>
      some (.ok ⟨up, cuts, buf, headEnd, contentLength (buf.take headEnd),
        isChunked (buf.take headEnd)⟩)
  else some (.error ())

def badGateway : List UInt8 :=
  "HTTP/1.1 502 Bad Gateway\r\nContent-Length: 11\r\nConnection: close\r\n\r\nbad gateway".toUTF8.toList

/-- What a streamed forward reports, with both ends as it leaves them. -/
structure Streamed where
  head : List UInt8
  bytes : ℕ
  keepalive : Bool
  complete : Bool
  up : Upstream
  client : Client
  pooled : Bool
  idle : Option (List UInt8)

def refuseUpstreamHead (up : Upstream) (client : Client) (idle : Option (List UInt8)) : Streamed :=
  let (wrote, client) := client.writeAll badGateway
  ⟨badGateway, if wrote then badGateway.length else 0, false, false, up, client, false, idle⟩

/-- What an exchange brings: its sockets, whether the client asked to stay connected, the client, and
whether the system gives a pipe. -/
structure Exchange where
  dials : Dials
  keepaliveReq : Bool
  client : Client
  pipes : Bool

def streamFrom (S : Seams) (x : Exchange) (idle : Option (List UInt8)) (uh : UpstreamHead) :
    Option Streamed :=
  let raw := uh.buf.take uh.headEnd
  let keepalive := x.keepaliveReq && (uh.clen.isSome || uh.chunked)
  let upstreamReusable := respUpstreamKeepalive raw
  match S.clientRespHead raw keepalive with
  | none => some (refuseUpstreamHead uh.up x.client idle)
  | some head =>
    match x.client.writeAll head with
    | (false, client) => some ⟨head, 0, false, false, uh.up, client, false, idle⟩
    | (true, client) =>
      (body uh.clen uh.chunked idle x.pipes (uh.buf.drop uh.headEnd) uh.cuts
        ⟨uh.up, client, head.length⟩).map fun (complete, p, idle) =>
          -- `maybe_pool_upstream`
          ⟨head, p.bytes, keepalive && complete, complete, p.up, p.client,
            complete && uh.clen.isSome && upstreamReusable, idle⟩

def forwardStreamingSpliced (S : Seams) (x : Exchange) (idle : Option (List UInt8)) :
    Option (Except Unit Streamed) :=
  match x.dials.attempt sendAndReadHead with
  | none => none
  | some (.error _) => some (.error ())
  | some (.ok uh) => (streamFrom S x idle uh).map .ok

end DragonsNet.Dataplane.Upstreams
