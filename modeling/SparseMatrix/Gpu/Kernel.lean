import SparseMatrix.Gpu.Precision

/-!
# Kernel source

`kernelSource p` is the WGSL module of the three dot product kernels for precision `p`:
a tiled matrix product (`matmulEntry`), a vector dot product (`vectorDotEntry`) and a
matrix-vector product (`matvecEntry`). All three share one binding layout: the left
operand, the right operand, the output, and the uniform sizes `m`, `k`, `n`.

The text is a template in which only the scalar type, its zero literal, the tile size,
the matrix-vector workgroup size and the entry names vary.
-/

namespace SparseMatrix.Gpu

/-- The lines of the kernel module for precision `p`. -/
def kernelLines (p : Precision) : List String :=
  ["// expmat dot product kernels (" ++ p.wgslType ++ ")",
    "",
    "const TILE_SIZE: u32 = " ++ toString tileSize ++ "u;",
    "",
    "struct KernelParams \x7b",
    "    m: u32,",
    "    k: u32,",
    "    n: u32,",
    "    _padding: u32,",
    "\x7d",
    "",
    "@group(0) @binding(0) var<storage, read> lhs: array<" ++ p.wgslType ++ ">;",
    "@group(0) @binding(1) var<storage, read> rhs: array<" ++ p.wgslType ++ ">;",
    "@group(0) @binding(2) var<storage, read_write> result: array<" ++ p.wgslType ++ ">;",
    "@group(0) @binding(3) var<uniform> params: KernelParams;",
    "",
    "var<workgroup> tile_a: array<array<" ++ p.wgslType ++ ", " ++ toString tileSize ++ ">, " ++ toString tileSize ++ ">;",
    "var<workgroup> tile_b: array<array<" ++ p.wgslType ++ ", " ++ toString tileSize ++ ">, " ++ toString tileSize ++ ">;",
    "",
    "// C[m x n] = A[m x k] * B[k x n], row-major. Out-of-range tile cells are",
    "// zero-padded so partial edge tiles contribute nothing.",
    "@compute @workgroup_size(" ++ toString tileSize ++ ", " ++ toString tileSize ++ ", 1)",
    "fn " ++ matmulEntry ++ "(@builtin(local_invocation_id) local_id: vec3<u32>,",
    "            @builtin(workgroup_id) group_id: vec3<u32>) \x7b",
    "    let row = group_id.y * TILE_SIZE + local_id.y;",
    "    let col = group_id.x * TILE_SIZE + local_id.x;",
    "",
    "    var sum: " ++ p.wgslType ++ " = " ++ p.wgslZero ++ ";",
    "    let num_tiles = (params.k + TILE_SIZE - 1u) / TILE_SIZE;",
    "",
    "    for (var t_idx: u32 = 0u; t_idx < num_tiles; t_idx = t_idx + 1u) \x7b",
    "        let a_col = t_idx * TILE_SIZE + local_id.x;",
    "        if (row < params.m && a_col < params.k) \x7b",
    "            tile_a[local_id.y][local_id.x] = lhs[row * params.k + a_col];",
    "        \x7d else \x7b",
    "            tile_a[local_id.y][local_id.x] = " ++ p.wgslZero ++ ";",
    "        \x7d",
    "",
    "        let b_row = t_idx * TILE_SIZE + local_id.y;",
    "        if (b_row < params.k && col < params.n) \x7b",
    "            tile_b[local_id.y][local_id.x] = rhs[b_row * params.n + col];",
    "        \x7d else \x7b",
    "            tile_b[local_id.y][local_id.x] = " ++ p.wgslZero ++ ";",
    "        \x7d",
    "",
    "        workgroupBarrier();",
    "",
    "        for (var i: u32 = 0u; i < TILE_SIZE; i = i + 1u) \x7b",
    "            sum = sum + tile_a[local_id.y][i] * tile_b[i][local_id.x];",
    "        \x7d",
    "",
    "        workgroupBarrier();",
    "    \x7d",
    "",
    "    if (row < params.m && col < params.n) \x7b",
    "        result[row * params.n + col] = sum;",
    "    \x7d",
    "\x7d",
    "",
    "// result[0] = sum(lhs[i] * rhs[i]) for i < k, in a single invocation.",
    "@compute @workgroup_size(1)",
    "fn " ++ vectorDotEntry ++ "() \x7b",
    "    var sum: " ++ p.wgslType ++ " = " ++ p.wgslZero ++ ";",
    "    for (var i: u32 = 0u; i < params.k; i = i + 1u) \x7b",
    "        sum = sum + lhs[i] * rhs[i];",
    "    \x7d",
    "    result[0] = sum;",
    "\x7d",
    "",
    "// result[m] = A[m x k] * x[k], one invocation per row.",
    "@compute @workgroup_size(" ++ toString matvecWorkgroupSize ++ ")",
    "fn " ++ matvecEntry ++ "(@builtin(global_invocation_id) global_id: vec3<u32>) \x7b",
    "    let row = global_id.x;",
    "    if (row >= params.m) \x7b",
    "        return;",
    "    \x7d",
    "    var sum: " ++ p.wgslType ++ " = " ++ p.wgslZero ++ ";",
    "    for (var j: u32 = 0u; j < params.k; j = j + 1u) \x7b",
    "        sum = sum + lhs[row * params.k + j] * rhs[j];",
    "    \x7d",
    "    result[row] = sum;",
    "\x7d"]

/-- The kernel module for precision `p`, each line ended by a line feed. -/
def kernelSource (p : Precision) : String :=
  String.join ((kernelLines p).map (· ++ "\n"))

end SparseMatrix.Gpu
