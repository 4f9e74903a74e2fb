import AmpMarkup.Unicode.Runs

/-! What characters are worth in domain names: allowed, left out, replaced by others, or refused. A
character whose replacement could not stand in a domain name counts as refused. -/

namespace AmpMarkup.Unicode

/-- How a domain name treats a character. -/
inductive DomainStatus where
  | allowed
  | ignored
  | mapped
  | refused
deriving DecidableEq, Repr, Inhabited

/-- The status for which a letter stands. -/
def DomainStatus.ofLetter : Char → DomainStatus
  | 'V' => allowed
  | 'I' => ignored
  | 'M' => mapped
  | _ => refused

/-- Letters for the status of characters in a row, with their number in base 36. -/
def domainRuns : List String :=
  ["V3kXxV7XVMV2IVXV2M2XMV2XM2VM3VMnVM7VxMVMVMVMVMVMVMVMVMVMVMVMVMVMVMVMVMVMVMVMVMVMVMVMVMVM3",
   "VMV2MVMVMVM3VMVMVMVM2VMVMVMVMVMVMVMVMVMVMVMVMVMVMVMVMVMVMVMVMVMVMVM2VMVMVMVM2VMVM2VM3V2M4",
   "VM2VM3V3M2VM2VMVMVM2VMV2MVM2VM3VMVM2V3MV7MaVMVMVMVMVMVMVMV2MVMVMVMVMVMVMVMVMV2M4VM3VMVMVM",
   "VMVMVMVMVMVMVMVMVMVMVMVMVMVMVMVMVMVMVMVMVMVMVMVMVMVMV7M2VM2V2MVM4VMVMVMVMV2pM9VvX6V2M5V2j",
   "M2VM3V9IVwMVMVMVMVX3V3M2X6M5XMXM2VMhXM9VzM8VMVMVMVMVMVMVMVMVMVMVMVMVM3VM2VMVM2V2M1fV1cMVM",
   "VMVMVMVMVMVMVMVMVMVMVMVMVMVMVMV9MVMVMVMVMVMVMVMVMVMVMVMVMVMVMVMVMVMVMVMVMVMVMVMVMVMVMVM2V",
   "MVMVMVMVMVMV2MVMVMVMVMVMVMVMVMVMVMVMVMVMVMVMVMVMVMVMVMVMVMVMVMVMVMVMVMVMVMVMVMVMVMVMVMVMV",
   "MVMVMVMVMVMVMVMVMVMVXM12X2V1aMV3X2V3XV1jX8VrX4V6XhVmXV2gM4V2sXV1cX2V1nX2V2tXeV1nX2V1dX2Vf",
   "XVsX2VXVbX5VwX7V23XV39M8V10XV8X2V2X2VmXV7XVX3V4X2V9X2V2X2V4X8VX4M2XMV4X2VpX2V3XV6X4V2X2Vm",
   "XV7XVMXVMXV2X2VXV5X4V2X2V3X3VX7M3VXMX7VhXaV3XV9XV3XVmXV7XV2XV5X2VaXV3XV3X2VXfV4X2VcX7V7XV",
   "3XV8X2V2X2VmXV7XV2XV5X2V9X2V2X2V3X7V3X4M2XV5X2ViXaV2XV6X3V3XV4X3V2XVXV2X3V2X3V3X3VcX4V5X3",
   "V3XV4X2VX6VXeVlX5VdXV3XVnXVgX2V9XV3XV4X7V2XV3XV2X2V4X2VaX7VmXV3XVnXVaXV5X2V9XV3XV4X7V2X5V",
   "3XV4X2VaXV3XcVdXV3XV1fXV3XV6X4VgX2VqXV3XViX3VoXV9XVX2V7X3VX4V6XVXV8X6VaX2V3XcV1eMV7X4VtX1",
   "1V2XVXV5XVoXVXVcMVaX2V5XVXV7XVaX2M2V2XwVcMV1iMV4XV4MV4MV4MV4MVcMV3X4V2MVM5V7MVhMV4XV4MV4M",
   "V4MV4MVcMV3XVfXVdX11V4gM12XMX5MX2V18MV2qI2V6gXV4X2V7XVXV4X2V15XV4X2VxXV4X2V7XVXV4X2VfXV1l",
   "XV4X2V1vX2VwX3VqX6V2eX2M6X2VhsXVsX3V2hX7VmX9VoX9VkXcVdXV3XV2XcV1gI2V14X2VaX6VaX6VbI5VaX6V",
   "2hX7V17X5V1yXaVvXVcX4VcX4VX3V16X2V5XbV18X4VqX6VbX3V1qX2V1tXVtX2VbX6VaX6VeX2V1aX2VcXkV25XV",
   "4mX8V1oX3VfX3V1fMaVX5M17X2M3V8X8V17X5V18M3VMbVMiVMsVdMVyM11V1sMVMVMVMVMVMVMVMVMVMVMVMVMVM",
   "VMVMVMVMVMVMVMVMVMVMVMVMVMVMVMVMVMVMVMVMVMVMVMVMVMVMVMVMVMVMVMVMVMVMVMVMVMVMVMVMVMVMVMVMV",
   "MVMVMVMVMVMVMVMVMVMVMVMVMVMVMVMVMV5M2V2MVMVMVMVMVMVMVMVMVMVMVMVMVMVMVMVMVMVMVMVMVMVMVMVMV",
   "MVMVMVMVMVMVMVMVMVMVMVMVMVMVMVMVMVMVMVMVMVMVMVMV9M8V6X2M6X2V8M8V8M8V6X2M6X2V8XMXMXMXMV8M8",
   "VMVMVMVMVMVMVMX2M1cV2M3XVM6XMX3M3XVM6X3V3MX2V2M4X4V3MV4M5X2MX2M3XVM6XeIV2X2VMV5XVcX3VX8V3",
   "M2VM2V4MVXV8X3VdMV7XI5X5I6M2X2MrXMdX3V8MVpXeVxXhM2VX2MVMbVM2V2M5V2M3VMVMVMVM4VMbVM6V4M5V6",
   "M1cV3MV5MV2X4V4cM2VM2V6wM2V73XmVbXlM14XkM27V10hMV2vXM2V2tMV47X2V3uM1cV1cMVM3V2MVMVMVM4VMV",
   "2MV6M5VMVMVMVMVMVMVMVMVMVMVMVMVMVMVMVMVMVMVMVMVMVMVMVMVMVMVMVMVMVMVMVMVMVMVMVMVMVMVMVMVMV",
   "MVMVMVMVMVMVMVMV8MVMV4MVX5V19XVX5VX2V1kX7MVXeVoX9V7XV7XV7XV7XV7XV7XV7XV7XV3iXyVqXV4MV2bMX",
   "cM5yX17VMV1fMVM3V5XV2eX2V2X2V2MV2nMX5V17XM1fIM16XV2MeV1yXaVgMvXM14V8M1bVM8yXM4XMgXM13Vm8d",
   "X3V1jX9V9oXkMVMVMVMVMVMVMVMVMVMVMVMVMVMVMVMVMVMVMVMVMVMVMVjMVMVMVMVMVMVMVMVMVMVMVMVMVMVM2",
   "V2iX8VyMVMVMVMVMVMVMV3MVMVMVMVMVMVMVMVMVMVMVMVMVMVMVMVMVMVMVMVMVMVMVMVMVMVMVMVMVMVMVMV8MV",
   "MVM2VMVMVMVMV4MVMV2MVMV3MVMVMVMVMVMVMVMVMVMVM5VM5VMVMVMVMVMVMVMVM4VMVM2VMVMVMVMVMVMVMVMXk",
   "M5V2M2V1fX3VaX6V1kX8V1yX8VcX6V38XbVuX3V26XVbX4VxXV1jX9VeX2VaX2V2vXoVsXaV6X2V6X2V6X9V7XV7X",
   "V18M4V9MV2X4M28V1aX2VaX6V8mcXcVnX4V1dX6isM7iV2MVMV2MaVMVMV2M2V3M1wX2M2yX12M7XcM5X5MVMoXM5",
   "XMXM2XM2XM30VxM3vX6M62ViM1sV2M1iV8XwMaX2MV3IgM2X2M2XM2X7VgXMkV2X6M5X2MX2M8XM4X2MX2MX7MXVX",
   "3MXMXMXMXM3iX2IXM2XMXM9XMaXMXMX3MqX4MtXM1vIMuX3M6X2M6X2M6X2M3X3M3XM3XM7XhVcXVqXVjXV2XVfX2",
   "VeXyV3fX5V3X4V19X3V2gXVdX3VX1bV1aX3mVtX3V1dXfVsX4V10X9VuX5V17X5VuXV11X4VeX16M14V3aX2VaX6M",
   "10X4V10X4V14X8V1gXbVMbXMfXM7XM2XVbXVfXV7XV2X3V1gXcV8nX9VmXaV8XoVM5XM16XM9X1xV6X2VXV18XV2X",
   "3VX2VnXV20X8V9X1cVjXV2X5VxX3VrX5VrX12V1kX4VkX2V1eXV2X5V8XV3XVtX2V3X4VaX7V9X7V1sXwV13X4VcX",
   "9V1iX3VtX2VrX5VqX7V4XcV7X28V21X1jM1fXdV1fX7V1aX8VaX6VgMmX3VtX8V2X5sVvXV16XV3X2V2XgV6X8V9X",
   "xV1aX8V16XmVqX12VsXkVnX9V26X4V10X9V1qXV5XdVpX7VaX6V1hXViX8V13X9V2oXVkXbViXV1bX1qV7XVXV4XV",
   "fXVbX6V1nX5VaX6V4XV8X2V2X2VmXV7XV2XV5XVaX2V2X2V3X2VX6VX5V7X2V7X3V5XbVaXVX2VXV12XVaXVX2VXV",
   "4XVaXV2X8V2XtV2kXV5XuV20X8VaX4mV1iX2V12XyV1xXbVaX6VdXjV1mX6VaX6VkXsVrX2VfX4VnX55V1oX2sMwV",
   "1fXcV8X2VX2V8XV2XVuXV2X2VcX9VaX1yV8X2V1aX2VbXrV20X8V2bXdV21X7VaX2eV8X2gVyXeVaX6V9XV19XVeX",
   "aVtX3VwX2VmXVeX21V7XV2XV18X3VXV2XV9X8VaX6V6XV2XV11XV2XV6X7VaX6V18X4VaX6uVpX7VhXV15X3VtX2d",
   "VXfV1eXdVpnX2uV33XV5XbV5gX218V2rXdVtsXgVmXaV32zX5Vg7X5a1V1mX1c6VftX7VvXVaX4V29XVaX6VuX2V6",
   "XaV1yXaVaXV7XVlX5VjXc0V1mX5iMwV1nX5MpX2VpX18V23X4V1lX7VhX1sV5XbV7X9V5p2X15VwX2pV37X6ppV4X",
   "V7XV2XV83XfVXtV3X2VXeV4X8Vb0X1s4V2zX5VdX3V9X7VaX2V4I4X318V5yM10V3X3Vc4X6VnXfVhXfV1aX2VnX9",
   "V38X1oV6uXaV13X2V1hM7VeI8V1sM6V16XlV1yX3eVkXcVkXcV2fX9VpX3rM2dXM1zXM2X2MX2M2X2M4XMcXMXM7X",
   "M1tXM4X2M8XM7XMsXM4XM5XMX3M7XM9gX2M84X2M1eVi4XfV5XVfXuoVvX6V6X5xV7XVhX2V7XV2XV5X5M1qXxVX3",
   "4V19X3VeX2VaX4V2X8wVvXhV1mX5VXcwV16X5yV17X4VX5cVvXVmX8V2X68V7XV4XV2XVfXV5hX2VgX15MyV16X4V",
   "aX4V2XltV1wX24V1pX5eM4XMrXM2XMX2MXMaXM4XMXMX6MX4MXMXMXM3XM2XMX2MXMXMXMXMXM2XMX2M4XM7XM4XM",
   "4XMXMaXMhX5M3XM5XMhX1gV2X7iV18X4V2sXcVfX2VfXVfXV11XbMaV5MvVMwVqM3VzMVtX1kVqM3XdM18X4M9X7M",
   "2XeV6X4aVrdX3VhX3VdX3V62X6VcX4VXfVcX4V1kX8VaX6V14X8VuX2VcX4V2XeV9X13V9kX8VeX2VdX3VbX3V1lX",
   "VX4VgX2VcX4VaX7V43XV2kMaVXslVwyoXwV3dqX2V4geX2V5rlXfVhaX1wiMf2X15uV3t7X5V6juXf62uI6oX47bk"]

/-- Where each run of characters of one status starts. -/
def domainTable : Runs DomainStatus :=
  .ofLetters DomainStatus.ofLetter (domainRuns.flatMap String.toList)

/-- How a domain name treats a character. -/
def domainStatus (c : Char) : DomainStatus :=
  domainTable.valueAt c.toNat

/-- Characters in a row that are replaced by ASCII: how far the first is from the first of the run
before and how many there are, both in base 36, and the replacement of the first. Each of the others
is replaced by the character after the one before. -/
def asciiReplacements : List String :=
  ["4q,1,a 8,2,2 7,1,1 1,1,o 3c,1,ij 1,1,ij 24,1,s 20,1,lj 1,1,lj 1,1,lj 1,1,nj 1,1,nj 1,1,nj",
   " 11,1,dz 1,1,dz 1,1,dz 59,1,h 2,1,j 1,1,r 4,1,w 1,1,y 15,1,l 1,1,s 1,1,x 4b,1,; 52m,1,a 2",
   ",1,b 2,2,d 3,8,g 9,1,o 2,1,p 1,1,r 1,2,t 2,1,w 1,1,a 4,1,b 1,2,d 5,1,g 2,1,k 1,1,m 2,1,o ",
   "4,1,p 1,2,t 4,1,v 7,1,i 1,1,r 1,2,u 1k,1,c 4,1,f r,1,z fo,1,` 25,1,!! 1g,1,0 1,1,i 3,6,4 ",
   "6,1,+ 2,1,= 1,2,( 2,1,n 1,a,0 a,1,+ 2,1,= 1,2,( 3,1,a 1,1,e 1,1,o 1,1,x 2,1,h 1,4,k 4,1,p",
   " 1,2,s d,1,rs 2i,1,c 8,2,g 2,1,h 1,1,h 1,1,h 2,1,i 1,1,i 1,1,l 1,1,l 2,1,n 1,1,no 3,3,p 3",
   ",1,r 1,1,r 3,1,sm 1,1,tel 1,1,tm 2,1,z 4,1,z 2,1,k 2,2,b 3,1,e 1,2,e 3,1,m 1,1,o 5,1,i 2,",
   "1,fax a,1,d 1,2,d 2,2,i o,1,i 1,1,ii 1,1,iii 1,1,iv 1,1,v 1,1,vi 1,1,vii 1,1,viii 1,1,ix ",
   "1,1,x 1,1,xi 1,1,xii 1,1,l 1,2,c 2,1,m 1,1,i 1,1,ii 1,1,iii 1,1,iv 1,1,v 1,1,vi 1,1,vii 1",
   ",1,viii 1,1,ix 1,1,x 1,1,xi 1,1,xii 1,1,l 1,2,c 2,1,m kh,9,1 9,1,10 1,1,11 1,1,12 1,1,13 ",
   "1,1,14 1,1,15 1,1,16 1,1,17 1,1,18 1,1,19 1,1,20 1,1,(1) 1,1,(2) 1,1,(3) 1,1,(4) 1,1,(5) ",
   "1,1,(6) 1,1,(7) 1,1,(8) 1,1,(9) 1,1,(10) 1,1,(11) 1,1,(12) 1,1,(13) 1,1,(14) 1,1,(15) 1,1",
   ",(16) 1,1,(17) 1,1,(18) 1,1,(19) 1,1,(20) l,1,(a) 1,1,(b) 1,1,(c) 1,1,(d) 1,1,(e) 1,1,(f)",
   " 1,1,(g) 1,1,(h) 1,1,(i) 1,1,(j) 1,1,(k) 1,1,(l) 1,1,(m) 1,1,(n) 1,1,(o) 1,1,(p) 1,1,(q) ",
   "1,1,(r) 1,1,(s) 1,1,(t) 1,1,(u) 1,1,(v) 1,1,(w) 1,1,(x) 1,1,(y) 1,1,(z) 1,q,a q,q,a q,1,0",
   " 13f,1,== 1,1,=== ee,1,j 1,1,v p1,1,. ge,1,pte 1,1,21 1,1,22 1,1,23 1,1,24 1,1,25 1,1,26 ",
   "1,1,27 1,1,28 1,1,29 1,1,30 1,1,31 1,1,32 1,1,33 1,1,34 1,1,35 2a,1,36 1,1,37 1,1,38 1,1,",
   "39 1,1,40 1,1,41 1,1,42 1,1,43 1,1,44 1,1,45 1,1,46 1,1,47 1,1,48 1,1,49 1,1,50 d,1,hg 1,",
   "1,erg 1,1,ev 1,1,ltd 4i,1,hpa 1,1,da 1,1,au 1,1,bar 1,1,ov 1,1,pc 1,1,dm 1,1,dm2 1,1,dm3 ",
   "1,1,iu 6,1,pa 1,1,na 2,1,ma 1,1,ka 1,1,kb 1,1,mb 1,1,gb 1,1,cal 1,1,kcal 1,1,pf 1,1,nf 3,",
   "1,mg 1,1,kg 1,1,hz 1,1,khz 1,1,mhz 1,1,ghz 1,1,thz 2,1,ml 1,1,dl 1,1,kl 1,1,fm 1,1,nm 2,1",
   ",mm 1,1,cm 1,1,km 1,1,mm2 1,1,cm2 1,1,m2 1,1,km2 1,1,mm3 1,1,cm3 1,1,m3 1,1,km3 3,1,pa 1,",
   "1,kpa 1,1,mpa 1,1,gpa 1,1,rad 3,1,ps 1,1,ns 2,1,ms 1,1,pv 1,1,nv 2,1,mv 1,1,kv 1,1,mv 1,1",
   ",pw 1,1,nw 2,1,mw 1,1,kw 1,1,mw 4,1,bq 1,1,cc 1,1,cd 3,1,db 1,1,gy 1,1,ha 1,1,hp 1,1,in 1",
   ",1,kk 1,1,km 1,1,kt 1,1,lm 1,1,ln 1,1,log 1,1,lx 1,1,mb 1,1,mil 1,1,mol 1,1,ph 2,1,ppm 1,",
   "1,pr 1,1,sr 1,1,sv 1,1,wb y,1,gal mwi,1,s 1,1,c 1,1,f 1,1,q gek,1,ff 1,1,fi 1,1,fl 1,1,ff",
   "i 1,1,ffl 1,1,st 1,1,st z,1,+ kn,1,, 4,1,; 1,1,! u,1,_ 1,1,_ 1,2,( 2,1,\x7b 1,1,\x7d l,1,_ ",
   "1,1,_ 1,1,_ 1,1,, 4,1,; 3,1,! 2,2,( 2,1,\x7b 1,1,\x7d 4,1,& 1,2,* 2,1,- 3,1,= 3,1,$ 48,2,! ",
   "3,1,$ 2,",
   "9,& a,a,0 b,1,; 2,1,= 4,q,a u,t,_ u,2,\x7d 4,1,. 1ms,1,q 12y9,q,a q,a,0 1e8,q,a q,q,a q,q,a ",
   "q,7,a 8,i,i i,q,a q,q,a q,1,a 2,2,c 4,1,g 3,2,j 4,4,n 5,8,s 8,4,a 5,1,f 2,7,h 8,b,p b,q,a",
   " q,q,a q,2,a 3,4,d 6,8,j 9,7,s 8,q,a q,2,a 3,4,d 5,5,i 6,1,o 4,7,s 8,q,a q,q,a q,q,a q,q,",
   "a q,q,a q,q,a q,q,a q,q,a q,q,a q,q,a q,q,a q,q,a q,q,a 90,a,0 a,a,0 a,a,0 a,a,0 a,a,0 4y",
   "3,1,0, 1,1,1, 1,1,2, 1,1,3, 1,1,4, 1,1,5, 1,1,6, 1,1,7, 1,1,8, 1,1,9, 6,1,(a) 1,1,(b) 1,1",
   ",(c) 1,1,(d) 1,1,(e) 1,1,(f) 1,1,(g) 1,1,(h) 1,1,(i) 1,1,(j) 1,1,(k) 1,1,(l) 1,1,(m) 1,1,",
   "(n) 1,1,(o) 1,1,(p) 1,1,(q) 1,1,(r) 1,1,(s) 1,1,(t) 1,1,(u) 1,1,(v) 1,1,(w) 1,1,(x) 1,1,(",
   "y) 1,1,(z) 2,1,c 1,1,r 1,1,cd 1,1,wz 2,q,a q,1,hv 1,1,mv 1,1,sd 1,1,ss 1,1,ppv 1,1,wc r,1",
   ",mc 1,1,md 1,1,mr 10,1,dj 21s,a,0"]

/-- Characters that are replaced by ASCII, in a row. -/
structure ReplacementRun where
  start : Nat
  count : Nat
  text : Text

/-- The runs after a start. -/
def replacementRunsAfter (start : Nat) : List Text → List ReplacementRun
  | [] => []
  | entry :: rest =>
    match Text.splitOnce? ',' entry with
    | some (gap, entry) =>
      match Text.splitOnce? ',' entry with
      | some (count, text) =>
        let first := start + Text.numeral 36 gap
        ⟨first, Text.numeral 36 count, text⟩ :: replacementRunsAfter first rest
      | none => []
    | none => []

/-- All characters that are replaced by ASCII. -/
def replacementRuns : List ReplacementRun :=
  replacementRunsAfter 0 (Text.splitOn ' ' (asciiReplacements.flatMap String.toList))

/-- The ASCII text that replaces a character in a domain name. -/
def asciiReplacement? (c : Char) : Option Text :=
  (replacementRuns.find? fun r => r.start ≤ c.toNat && c.toNat < r.start + r.count).map fun r =>
    match r.text with
    | [first] => [Char.ofNat (first.toNat + (c.toNat - r.start))]
    | text => text

end AmpMarkup.Unicode
